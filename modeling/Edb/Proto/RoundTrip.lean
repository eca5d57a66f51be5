import Edb.Proto.Codec

/-!
# Requests come back

What `decodeRequest` returns is encoded to bytes that `decodeRequest` reads as the same request
(`decodeRequest_encodeRequest`), as long as the encoding is within the limits.

The argument goes up the grammar. `Stable read write a` says that `a` is written as a document
with distinct keys that is read back as `a`; every node a decoder returns is stable, given that
the document it was read from has distinct keys. Documents then come back by the wire layer.
-/

namespace Edb.Proto

open Edb.Types Edb.Lib

/-- `a` is written as a document with distinct keys that is read back as `a`. -/
structure Stable {α : Type} (read : Doc → ProtoResult α) (write : α → Doc) (a : α) : Prop where
  back : read (write a) = .ok a
  keyed : (write a).Keyed

section Stable

variable {α : Type} {read : Doc → ProtoResult α} {write : α → Doc} {as : List α}

theorem Stable.mapM (h : ∀ a ∈ as, Stable read write a) : (as.map write).mapM read = .ok as := by
  rw [Result.mapM_eq_ok, List.forall₂_map_left_iff, List.forall₂_same]
  exact fun a ha => (h a ha).back

theorem Stable.keyedItems (h : ∀ a ∈ as, Stable read write a) :
    Doc.KeyedItems (as.map write) := by
  rw [Doc.keyedItems_iff]
  intro d hd
  obtain ⟨a, ha, rfl⟩ := List.mem_map.1 hd
  exact (h a ha).keyed

end Stable

/-! ## Expressions -/

/-- The expression comes back. -/
abbrev Expr.Stable (e : Expr) : Prop := Proto.Stable exprFrom exprToDoc e

theorem exprsToDocs_eq (es : List Expr) : exprsToDocs es = es.map exprToDoc := by
  induction es with
  | nil => rfl
  | cons e es ih => rw [exprsToDocs, ih, List.map_cons]

theorem exprItems_eq (items : List Doc) : exprItems items = items.mapM exprFrom := by
  induction items with
  | nil => rfl
  | cons item items ih => rw [exprItems, ih, List.mapM_cons]

attribute [local simp] exprToDoc single exprFrom Doc.Keyed Doc.KeyedEntries Doc.KeyedItems

namespace Expr.Stable

variable {a b c : Expr} {es : List Expr}

theorem column (table : Option String) (name : String) : (Expr.column table name).Stable := by
  cases table <;> exact ⟨by simp [columnFrom, asStr], by simp⟩

theorem cmp (op : CmpOp) (ha : a.Stable) (hb : b.Stable) : (Expr.cmp op a b).Stable := by
  constructor
  · cases op <;> simp [CmpOp.name, pair, ha.back, hb.back]
  · simp [ha.keyed, hb.keyed]

theorem arith (op : ArithOp) (ha : a.Stable) (hb : b.Stable) : (Expr.arith op a b).Stable := by
  constructor
  · cases op <;> simp [ArithOp.name, pair, ha.back, hb.back]
  · simp [ha.keyed, hb.keyed]

theorem agg (func : AggFunc) (ha : a.Stable) : (Expr.agg func a).Stable := by
  constructor
  · cases func <;> simp [AggFunc.name, ha.back]
  · simp [ha.keyed]

theorem not (ha : a.Stable) : (Expr.not a).Stable := by
  constructor
  · simp [ha.back]
  · simp [ha.keyed]

theorem isNull (ha : a.Stable) : (Expr.isNull a).Stable := by
  constructor
  · simp [ha.back]
  · simp [ha.keyed]

theorem isNotNull (ha : a.Stable) : (Expr.isNotNull a).Stable := by
  constructor
  · simp [ha.back]
  · simp [ha.keyed]

theorem nullIf (ha : a.Stable) (hb : b.Stable) : (Expr.nullIf a b).Stable := by
  constructor
  · simp [pair, ha.back, hb.back]
  · simp [ha.keyed, hb.keyed]

theorem between (ha : a.Stable) (hb : b.Stable) (hc : c.Stable) :
    (Expr.between a b c).Stable := by
  constructor
  · simp [betweenFrom, ha.back, hb.back, hc.back]
  · simp [ha.keyed, hb.keyed, hc.keyed]

theorem like (pattern : String) (ci : Bool) (ha : a.Stable) :
    (Expr.like a pattern ci).Stable := by
  constructor
  · cases ci <;> simp [likeFrom, asStr, ha.back]
  · simp [ha.keyed]

theorem cast (to_ : TypeKind) (ha : a.Stable) : (Expr.cast a to_).Stable := by
  constructor
  · cases to_ <;> simp [castFrom, asStr, TypeKind.asStr, typeKindFromName, ha.back]
  · simp [ha.keyed]

/-- A list of expressions that is not empty comes back. -/
theorem list (field : String) (hne : es ≠ []) (h : ∀ e ∈ es, e.Stable) :
    exprList (.array (exprsToDocs es)) field = .ok es := by
  obtain ⟨e, es, rfl⟩ := List.exists_cons_of_ne_nil hne
  have hback := Proto.Stable.mapM (fun x hx => h x (List.mem_cons_of_mem _ hx))
  rw [exprsToDocs, exprList, (h e (by simp)).back, Result.ok_bind, exprItems_eq, exprsToDocs_eq,
    hback]
  rfl

theorem keyed_list (h : ∀ e ∈ es, e.Stable) : Doc.KeyedItems (exprsToDocs es) := by
  rw [exprsToDocs_eq]
  exact Proto.Stable.keyedItems h

theorem and (hne : es ≠ []) (h : ∀ e ∈ es, e.Stable) : (Expr.and es).Stable := by
  constructor
  · simp [list "and" hne h]
  · simp [keyed_list h]

theorem or (hne : es ≠ []) (h : ∀ e ∈ es, e.Stable) : (Expr.or es).Stable := by
  constructor
  · simp [list "or" hne h]
  · simp [keyed_list h]

theorem coalesce (hne : es ≠ []) (h : ∀ e ∈ es, e.Stable) : (Expr.coalesce es).Stable := by
  constructor
  · simp [list "coalesce" hne h]
  · simp [keyed_list h]

theorem inList (ha : a.Stable) (hne : es ≠ []) (h : ∀ e ∈ es, e.Stable) :
    (Expr.inList a es).Stable := by
  constructor
  · simp [inFrom, ha.back, list "in" hne h]
  · simp [ha.keyed, keyed_list h]

end Expr.Stable

section Operands

variable {n : Nat} {body : Doc}

/-- Every expression read from a document of less than `n` levels comes back. -/
abbrev StableBelow (n : Nat) : Prop :=
  ∀ d : Doc, d.depth < n → ∀ e, exprFrom d = .ok e → e.Stable

/-- Both operands of a binary node are stable when the shallower documents are. -/
theorem pair_stable (ih : StableBelow n) (hbody : body.depth < n) {node field : String}
    {p : Expr × Expr} (h : pair body node field = .ok p) : p.1.Stable ∧ p.2.Stable := by
  unfold pair at h
  split at h
  · next a b =>
    have ha := Doc.depth_lt_items (show a ∈ [a, b] by simp)
    have hb := Doc.depth_lt_items (show b ∈ [a, b] by simp)
    rw [Doc.depth] at hbody
    obtain ⟨l, hl, h⟩ := Result.bind_eq_ok.1 h
    obtain ⟨r, hr, h⟩ := Result.bind_eq_ok.1 h
    cases h
    exact ⟨ih a (by omega) l hl, ih b (by omega) r hr⟩
  · cases h
  · cases h

/-- Every document of a list is stable when the shallower documents are. -/
theorem items_stable (ih : StableBelow n) {items : List Doc} (hitems : Doc.depthItems items < n + 1)
    {es : List Expr} (h : items.mapM exprFrom = .ok es) : ∀ e ∈ es, e.Stable := by
  intro e he
  obtain ⟨d, hd, hde⟩ := Result.mem_of_mapM h he
  have := Doc.depth_lt_items hd
  exact ih d (by omega) e hde

/-- The operands of a list node are not empty, and stable when the shallower documents are. -/
theorem exprList_stable (ih : StableBelow n) (hbody : body.depth < n + 1) {field : String}
    {es : List Expr} (h : exprList body field = .ok es) : es ≠ [] ∧ ∀ e ∈ es, e.Stable := by
  unfold exprList at h
  split at h
  · cases h
  · next item items =>
    rw [exprItems_eq] at h
    have hmap : (item :: items).mapM exprFrom = .ok es := by
      rw [List.mapM_cons]
      exact h
    refine ⟨?_, items_stable ih hbody hmap⟩
    rintro rfl
    cases Result.mapM_eq_ok.1 hmap
  · cases h

/-- A `between` node is written back as it is read. -/
theorem betweenFrom_stable (ih : StableBelow n) (hbody : body.depth < n) {e : Expr}
    (h : betweenFrom body = .ok e) : e.Stable := by
  unfold betweenFrom at h
  split at h
  · next a b c =>
    have ha := Doc.depth_lt_items (show a ∈ [a, b, c] by simp)
    have hb := Doc.depth_lt_items (show b ∈ [a, b, c] by simp)
    have hc := Doc.depth_lt_items (show c ∈ [a, b, c] by simp)
    rw [Doc.depth] at hbody
    obtain ⟨x, hx, h⟩ := Result.bind_eq_ok.1 h
    obtain ⟨lo, hlo, h⟩ := Result.bind_eq_ok.1 h
    obtain ⟨hi, hhi, h⟩ := Result.bind_eq_ok.1 h
    cases h
    exact .between (ih a (by omega) x hx) (ih b (by omega) lo hlo) (ih c (by omega) hi hhi)
  · cases h
  · cases h

/-- An `in` node is written back as it is read. -/
theorem inFrom_stable (ih : StableBelow n) (hbody : body.depth < n) {e : Expr}
    (h : inFrom body = .ok e) : e.Stable := by
  unfold inFrom at h
  split at h
  · next a l =>
    have ha := Doc.depth_lt_items (show a ∈ [a, l] by simp)
    have hl := Doc.depth_lt_items (show l ∈ [a, l] by simp)
    rw [Doc.depth] at hbody
    obtain ⟨x, hx, h⟩ := Result.bind_eq_ok.1 h
    obtain ⟨es, hes, h⟩ := Result.bind_eq_ok.1 h
    cases h
    obtain ⟨hne, hall⟩ := exprList_stable ih (by omega) hes
    exact .inList (ih a (by omega) x hx) hne hall
  · cases h
  · cases h

/-- A `like` node is written back as it is read, with or without case. -/
theorem likeFrom_stable (ih : StableBelow n) (hbody : body.depth < n) {ci : Bool} {e : Expr}
    (h : likeFrom body ci = .ok e) : e.Stable := by
  unfold likeFrom at h
  split at h
  · next a p =>
    have ha := Doc.depth_lt_items (show a ∈ [a, p] by simp)
    rw [Doc.depth] at hbody
    obtain ⟨x, hx, h⟩ := Result.bind_eq_ok.1 h
    obtain ⟨pattern, -, h⟩ := Result.bind_eq_ok.1 h
    cases h
    exact .like pattern _ (ih a (by omega) x hx)
  · cases h
  · cases h

/-- A `cast` node is written back as it is read. -/
theorem castFrom_stable (ih : StableBelow n) (hbody : body.depth < n) {e : Expr}
    (h : castFrom body = .ok e) : e.Stable := by
  unfold castFrom at h
  split at h
  · next a t =>
    have ha := Doc.depth_lt_items (show a ∈ [a, t] by simp)
    rw [Doc.depth] at hbody
    obtain ⟨name, -, h⟩ := Result.bind_eq_ok.1 h
    split at h
    · cases h
    · obtain ⟨x, hx, h⟩ := Result.bind_eq_ok.1 h
      cases h
      exact .cast _ (ih a (by omega) x hx)
  · cases h
  · cases h

/-- A column reference is written back as it is read, qualified or not. -/
theorem columnFrom_stable {e : Expr} (h : columnFrom body = .ok e) : e.Stable := by
  unfold columnFrom at h
  split at h
  · cases h
    exact .column _ _
  · obtain ⟨table, -, h⟩ := Result.bind_eq_ok.1 h
    obtain ⟨name, -, h⟩ := Result.bind_eq_ok.1 h
    cases h
    exact .column _ _
  · cases h
  · cases h

end Operands

/-- Whatever expression a document is read as comes back. The induction is on the depth; the
node's name decides the case. -/
theorem exprFrom_stable {d : Doc} {e : Expr} (h : exprFrom d = .ok e) : e.Stable := by
  -- the induction is on a bound of the depth, since the operands sit at several depths below
  suffices hall : ∀ n, StableBelow n from hall (d.depth + 1) d (Nat.lt_succ_self _) e h
  clear h
  intro n
  induction n with
  | zero =>
    intro d hd
    cases hd
  | succ n ih =>
    intro d hd e h
    cases d with
    | null | bool | int | float | str | bin =>
      rw [exprFrom] at h
      cases h
      exact ⟨rfl, trivial⟩
    | array items =>
      rw [exprFrom] at h
      cases h
    | map entries =>
      -- an operator is a map with exactly one key
      match entries with
      | [] =>
        rw [exprFrom] at h
        · cases h
        · rintro _ _ ⟨⟩
      | _ :: _ :: _ =>
        rw [exprFrom] at h
        · cases h
        · rintro _ _ ⟨⟩
      | [(name, body)] =>
        have hbody : body.depth < n := by
          rw [Doc.depth, Doc.depthEntries] at hd
          omega
        -- what the operands of a node give
        have hsub : ∀ x, exprFrom body = .ok x → x.Stable := ih body hbody
        have hpair : ∀ {node field p}, pair body node field = .ok p → p.1.Stable ∧ p.2.Stable :=
          pair_stable ih hbody
        have hlist : ∀ {field es}, exprList body field = .ok es → es ≠ [] ∧ ∀ e ∈ es, e.Stable :=
          exprList_stable ih (by omega)
        have hcmp : ∀ op, (do
            let p ← pair body "expression" (CmpOp.name op)
            pure (Expr.cmp op p.1 p.2)) = Except.ok e → e.Stable := by
          intro op h
          obtain ⟨p, hp, h⟩ := Result.bind_eq_ok.1 h
          cases h
          exact .cmp op (hpair hp).1 (hpair hp).2
        have harith : ∀ op, (do
            let p ← pair body "expression" (ArithOp.name op)
            pure (Expr.arith op p.1 p.2)) = Except.ok e → e.Stable := by
          intro op h
          obtain ⟨p, hp, h⟩ := Result.bind_eq_ok.1 h
          cases h
          exact .arith op (hpair hp).1 (hpair hp).2
        have hagg : ∀ func, (do
            let arg ← exprFrom body
            pure (Expr.agg func arg)) = Except.ok e → e.Stable := by
          intro func h
          obtain ⟨x, hx, h⟩ := Result.bind_eq_ok.1 h
          cases h
          exact .agg func (hsub x hx)
        -- one case an operator, in the order of the source; the last is an unknown name
        unfold exprFrom at h
        dsimp only at h
        split at h
        case h_1 => exact columnFrom_stable h
        case h_2 => exact hcmp .eq h
        case h_3 => exact hcmp .ne h
        case h_4 => exact hcmp .lt h
        case h_5 => exact hcmp .lte h
        case h_6 => exact hcmp .gt h
        case h_7 => exact hcmp .gte h
        case h_8 =>
          obtain ⟨es, hes, h⟩ := Result.bind_eq_ok.1 h
          cases h
          exact .and (hlist hes).1 (hlist hes).2
        case h_9 =>
          obtain ⟨es, hes, h⟩ := Result.bind_eq_ok.1 h
          cases h
          exact .or (hlist hes).1 (hlist hes).2
        case h_10 =>
          obtain ⟨x, hx, h⟩ := Result.bind_eq_ok.1 h
          cases h
          exact .not (hsub x hx)
        case h_11 => exact harith .add h
        case h_12 => exact harith .sub h
        case h_13 => exact harith .mul h
        case h_14 => exact harith .div h
        case h_15 => exact harith .mod h
        case h_16 =>
          obtain ⟨x, hx, h⟩ := Result.bind_eq_ok.1 h
          cases h
          exact .isNull (hsub x hx)
        case h_17 =>
          obtain ⟨x, hx, h⟩ := Result.bind_eq_ok.1 h
          cases h
          exact .isNotNull (hsub x hx)
        case h_18 => exact betweenFrom_stable ih hbody h
        case h_19 => exact inFrom_stable ih hbody h
        case h_20 => exact likeFrom_stable ih hbody h
        case h_21 => exact likeFrom_stable ih hbody h
        case h_22 =>
          obtain ⟨es, hes, h⟩ := Result.bind_eq_ok.1 h
          cases h
          exact .coalesce (hlist hes).1 (hlist hes).2
        case h_23 =>
          obtain ⟨p, hp, h⟩ := Result.bind_eq_ok.1 h
          cases h
          exact .nullIf (hpair hp).1 (hpair hp).2
        case h_24 => exact castFrom_stable ih hbody h
        case h_25 => exact hagg .count h
        case h_26 => exact hagg .sum h
        case h_27 => exact hagg .min h
        case h_28 => exact hagg .max h
        case h_29 => exact hagg .avg h
        case h_30 => cases h

/-! ## Fields -/

section Fields

variable {map rest : Entries} {key name node : String} {d : Doc} {allowed : List String}

@[simp] theorem find_nil : find [] key = none := rfl

@[simp] theorem find_cons :
    find ((name, d) :: rest) key = if name = key then some d else find rest key := by
  by_cases h : name = key <;> simp [find, h]

@[simp] theorem find_append (a b : Entries) :
    find (a ++ b) key = (find a key).or (find b key) := by
  rw [find, List.find?_append, find, find]
  cases a.find? (fun e => e.1 = key) <;> rfl

@[simp] theorem find_field (o : Option Doc) :
    find (field name o) key = if name = key then o else none := by
  cases o <;> simp [field]

/-- A field that is found is one of the map. -/
theorem mem_of_find (h : find map key = some d) : (key, d) ∈ map := by
  rw [find, Option.map_eq_some_iff] at h
  obtain ⟨e, he, rfl⟩ := h
  have hkey := List.find?_some he
  rw [decide_eq_true_eq] at hkey
  rw [← hkey]
  exact List.mem_of_find?_eq_some he

theorem keyed_of_find (hmap : Doc.KeyedEntries map) (h : find map key = some d) : d.Keyed :=
  Doc.keyedEntries_iff.1 hmap _ (mem_of_find h)

/-- `only` accepts a map exactly when it has no other fields. -/
theorem only_eq_ok : only map node allowed = .ok () ↔ ∀ e ∈ map, e.1 ∈ allowed := by
  rw [only, Result.forM_eq_ok]
  constructor
  · intro h e he
    have hif := h e he
    split at hif
    · next hmem => exact hmem
    · cases hif
  · intro h e he
    rw [if_pos (h e he)]

theorem asMap_eq_ok {field : String} {entries : Entries} (h : asMap d node field = .ok entries) :
    d = .map entries := by
  cases d with
  | map => cases h; rfl
  | _ => cases h

theorem asArray_eq_ok {field : String} {items : List Doc} (h : asArray d node field = .ok items) :
    d = .array items := by
  cases d with
  | array => cases h; rfl
  | _ => cases h

/-- A required field is there. -/
theorem req_eq_ok {field : String} (h : req map node field = .ok d) :
    find map field = some d := by
  rw [req] at h
  split at h
  · cases h
  · next hfind =>
    cases h
    exact hfind

theorem req_of_find {field : String} (h : find map field = some d) :
    req map node field = .ok d := by
  rw [req, h]

theorem reqStr_of_find {field s : String} (h : find map field = some (.str s)) :
    reqStr map node field = .ok s := by
  rw [reqStr, req_of_find h]
  rfl

variable {α : Type} {f : Doc → ProtoResult α}

theorem optional_of_none (h : find map key = none) : optional map key f = .ok none := by
  rw [optional, h]

theorem optional_of_some {a : α} (h : find map key = some d) (hf : f d = .ok a) :
    optional map key f = .ok (some a) := by
  rw [optional, h]
  show (f d >>= _) = _
  rw [hf]
  rfl

/-- An optional field that was written when it was there is read as it was. -/
theorem optional_of_map {write : α → Doc} {o : Option α} (h : find map key = o.map write)
    (hf : ∀ a, o = some a → f (write a) = .ok a) : optional map key f = .ok o := by
  cases o with
  | none => exact optional_of_none h
  | some a => exact optional_of_some h (hf a rfl)

/-- What an optional field was read as was read from an entry of the map. -/
theorem optional_eq_ok {o : Option α} (h : optional map key f = .ok o) {a : α}
    (ha : o = some a) : ∃ d, find map key = some d ∧ f d = .ok a := by
  rw [optional] at h
  split at h
  · cases h
    cases ha
  · next d hfind =>
    obtain ⟨b, hb, h⟩ := Result.bind_eq_ok.1 h
    cases h
    cases ha
    exact ⟨d, hfind, hb⟩

/-- The same for a list field with its default. -/
theorem mem_of_optional {f : Doc → ProtoResult (List α)} {o : Option (List α)}
    (h : optional map key f = .ok o) {a : α} (ha : a ∈ o.getD []) :
    ∃ d as, find map key = some d ∧ f d = .ok as ∧ a ∈ as := by
  cases o with
  | none => cases ha
  | some as =>
    obtain ⟨d, hfind, hd⟩ := optional_eq_ok h rfl
    exact ⟨d, as, hfind, hd, ha⟩

end Fields

/-- The keys of a field that may be there. -/
theorem keys_field (name : String) (o : Option Doc) :
    ((field name o).map Prod.fst).Sublist [name] := by
  cases o with
  | none => exact List.nil_sublist _
  | some d => exact List.Sublist.refl _

theorem keyed_field {name : String} {o : Option Doc} (h : ∀ d, o = some d → d.Keyed) :
    Doc.KeyedEntries (field name o) := by
  cases o with
  | none => trivial
  | some d => exact ⟨h d rfl, trivial⟩

/-! ## The parts of a select -/

/-- A count comes from a signed integer, so it is below `2 ^ 63`. -/
theorem asU64_lt {d : Doc} {node field : String} {n : Nat} (h : asU64 d node field = .ok n) :
    n < 2 ^ 63 := by
  cases d with
  | int v =>
    have hlt := v.toInt_lt
    rw [asU64] at h
    split at h
    · cases h
      omega
    · cases h
  | _ => cases h

/-- A count below `2 ^ 63` is written back as it is read. -/
theorem asU64_countToDoc {node field : String} {n : Nat} (h : n < 2 ^ 63) :
    asU64 (countToDoc n) node field = .ok n := by
  have hint : (Int64.ofNat n).toInt = n := by
    rw [← Int64.ofInt_eq_ofNat]
    exact Int64.toInt_ofInt_of_le (by omega) (by omega)
  rw [countToDoc, intFromU64, if_pos h, asU64, hint, if_pos (by omega), Int.toNat_natCast]

theorem tableRef_stable (field : String) (t : TableRef) :
    Stable (tableRefFrom · field) tableRefToDoc t := by
  obtain ⟨table, alias_⟩ := t
  constructor
  · cases alias_ <;> rfl
  · cases alias_ <;> simp [tableRefToDoc, Proto.field]

abbrev JoinSpec.Stable (j : JoinSpec) : Prop := Proto.Stable joinSpecFrom joinSpecToDoc j

/-- A join is written back as it is read, its kind and its condition included. -/
theorem joinSpecFrom_stable {d : Doc} {j : JoinSpec} (h : joinSpecFrom d = .ok j) : j.Stable := by
  obtain ⟨map, hmap, h⟩ := Result.bind_eq_ok.1 h
  obtain ⟨_, -, h⟩ := Result.bind_eq_ok.1 h
  obtain ⟨kindName, -, h⟩ := Result.bind_eq_ok.1 h
  obtain ⟨kind, -, h⟩ := Result.bind_eq_ok.1 h
  obtain ⟨tableDoc, -, h⟩ := Result.bind_eq_ok.1 h
  obtain ⟨table, -, h⟩ := Result.bind_eq_ok.1 h
  obtain ⟨on, hon, h⟩ := Result.bind_eq_ok.1 h
  have hstable : ∀ e, on = some e → e.Stable := by
    intro e he
    obtain ⟨d, -, hd⟩ := optional_eq_ok hon he
    exact exprFrom_stable hd
  have htable := tableRef_stable "table" table
  have hkeyed : ∀ kind, (joinSpecToDoc ⟨kind, table, on⟩).Keyed := by
    intro kind
    cases on with
    | none => simp [joinSpecToDoc, Proto.field, htable.keyed]
    | some e => simp [joinSpecToDoc, Proto.field, htable.keyed, (hstable e rfl).keyed]
  cases kind <;> cases on <;> cases h
  all_goals
    refine ⟨?_, hkeyed _⟩
    simp [joinSpecToDoc, joinSpecFrom, asMap, Proto.field, only_eq_ok.2, reqStr, req, asStr,
      JoinKind.name, joinKindFrom, htable.back, optional]
  all_goals
    rw [(hstable _ rfl).back]
    rfl

/-- A sort key is written back in its long form, which reads as the same key. -/
theorem sortKeyFrom_stable {field : String} {d : Doc} {k : SortKey}
    (h : sortKeyFrom field d = .ok k) (field' : String) :
    Stable (sortKeyFrom field') sortKeyToDoc k := by
  obtain ⟨map, hmap, h⟩ := Result.bind_eq_ok.1 h
  obtain ⟨_, -, h⟩ := Result.bind_eq_ok.1 h
  obtain ⟨exprDoc, -, h⟩ := Result.bind_eq_ok.1 h
  obtain ⟨e, he, h⟩ := Result.bind_eq_ok.1 h
  obtain ⟨dir, -, h⟩ := Result.bind_eq_ok.1 h
  cases h
  have hstable := exprFrom_stable he
  generalize dir.getD .asc = dir
  constructor
  · cases dir <;> simp [sortKeyToDoc, sortKeyFrom, asMap, only_eq_ok.2, req, asStr, Dir.name,
      dirFrom, hstable.back, optional]
  · simp [sortKeyToDoc, hstable.keyed]

theorem sortKeysFrom_stable {d : Doc} {node field : String} {keys : List SortKey}
    (h : sortKeysFrom d node field = .ok keys) (field' : String) :
    ∀ k ∈ keys, Stable (sortKeyFrom field') sortKeyToDoc k := by
  obtain ⟨items, -, h⟩ := Result.bind_eq_ok.1 h
  intro k hk
  obtain ⟨d, -, hd⟩ := Result.mem_of_mapM h hk
  exact sortKeyFrom_stable hd field'

/-- A node named `as` is not an expression. -/
theorem Expr.Stable.ne_as {e : Expr} (h : e.Stable) (body : Doc) :
    exprToDoc e ≠ .map [("as", body)] := by
  intro heq
  have hback := h.back
  rw [heq] at hback
  simp at hback

/-- A projection is written back as it is read, with its alias if it has one. -/
theorem projectionFrom_stable {d : Doc} {p : Projection} (h : projectionFrom d = .ok p) :
    Stable projectionFrom projectionToDoc p := by
  rw [projectionFrom.eq_def] at h
  split at h
  · obtain ⟨parts, -, h⟩ := Result.bind_eq_ok.1 h
    split at h
    · obtain ⟨name, -, h⟩ := Result.bind_eq_ok.1 h
      obtain ⟨e, he, h⟩ := Result.bind_eq_ok.1 h
      cases h
      have hstable := exprFrom_stable he
      constructor
      · simp [projectionToDoc, projectionFrom, asArray, asStr, hstable.back]
      · simp [projectionToDoc, hstable.keyed]
    · cases h
  · obtain ⟨e, he, h⟩ := Result.bind_eq_ok.1 h
    cases h
    have hstable := exprFrom_stable he
    refine ⟨?_, hstable.keyed⟩
    rw [projectionToDoc, projectionFrom.eq_def]
    split
    · next body heq => exact absurd heq (hstable.ne_as body)
    · rw [hstable.back]
      rfl

theorem projectionsFrom_stable {d : Doc} {node field : String} {items : List Projection}
    (h : projectionsFrom d node field = .ok items) :
    ∀ p ∈ items, Stable projectionFrom projectionToDoc p := by
  obtain ⟨docs, -, h⟩ := Result.bind_eq_ok.1 h
  intro p hp
  obtain ⟨d, -, hd⟩ := Result.mem_of_mapM h hp
  exact projectionFrom_stable hd

theorem exprsFrom_stable {d : Doc} {node field : String} {es : List Expr}
    (h : exprsFrom d node field = .ok es) : ∀ e ∈ es, e.Stable := by
  obtain ⟨docs, -, h⟩ := Result.bind_eq_ok.1 h
  intro e he
  obtain ⟨d, -, hd⟩ := Result.mem_of_mapM h he
  exact exprFrom_stable hd

theorem joinsFrom_stable {d : Doc} {node field : String} {joins : List JoinSpec}
    (h : joinsFrom d node field = .ok joins) : ∀ j ∈ joins, j.Stable := by
  obtain ⟨docs, -, h⟩ := Result.bind_eq_ok.1 h
  intro j hj
  obtain ⟨d, -, hd⟩ := Result.mem_of_mapM h hj
  exact joinSpecFrom_stable hd

/-- An array field of stable items is read back. -/
theorem array_back {α : Type} {read : Doc → ProtoResult α} {write : α → Doc} {as : List α}
    (h : ∀ a ∈ as, Stable read write a) (node field : String) :
    (asArray (.array (as.map write)) node field >>= fun items => items.mapM read) = .ok as :=
  Stable.mapM h

/-- Named expressions with distinct names come back in their order. -/
structure NamedStable (named : List (String × Expr)) : Prop where
  names : (named.map Prod.fst).Nodup
  exprs : ∀ e ∈ named, e.2.Stable

theorem NamedStable.nil : NamedStable [] := ⟨List.nodup_nil, fun e he => by cases he⟩

/-- Named expressions are read back in their order. -/
theorem NamedStable.back {named : List (String × Expr)} (h : NamedStable named)
    (node field : String) : namedExprsFrom (namedExprsToDoc named) node field = .ok named := by
  show (named.map fun e => (e.1, exprToDoc e.2)).mapM _ = _
  rw [Result.mapM_eq_ok, List.forall₂_map_left_iff, List.forall₂_same]
  intro e he
  rw [(h.exprs e he).back]
  rfl

/-- Named expressions make a map without a key twice. -/
theorem NamedStable.keyed {named : List (String × Expr)} (h : NamedStable named) :
    (namedExprsToDoc named).Keyed := by
  constructor
  · rw [List.map_map]
    exact h.names
  · rw [Doc.keyedEntries_iff]
    intro e he
    obtain ⟨x, hx, rfl⟩ := List.mem_map.1 he
    exact (h.exprs x hx).keyed

/-- A map of expressions that has no key twice is stable, entry by entry. -/
theorem namedExprsFrom_stable {d : Doc} {node field : String} {named : List (String × Expr)}
    (hd : d.Keyed) (h : namedExprsFrom d node field = .ok named) : NamedStable named := by
  obtain ⟨entries, hentries, h⟩ := Result.bind_eq_ok.1 h
  rw [asMap_eq_ok hentries] at hd
  have hnames : named.map Prod.fst = entries.map Prod.fst := by
    have hall := Result.mapM_eq_ok.1 h
    clear * - hall
    induction hall with
    | nil => rfl
    | cons hxy _ ih =>
      obtain ⟨e, -, hxy⟩ := Result.bind_eq_ok.1 hxy
      cases hxy
      rw [List.map_cons, List.map_cons, ih]
  constructor
  · rw [hnames]
    exact hd.1
  · intro e he
    obtain ⟨x, -, hx⟩ := Result.mem_of_mapM h he
    obtain ⟨y, hy, hx⟩ := Result.bind_eq_ok.1 hx
    cases hx
    exact exprFrom_stable hy

/-! ## Stages -/

abbrev Stage.Stable (s : Stage) : Prop := Proto.Stable stageFrom stageToDoc s

/-- A `group` stage is written back as it is read, its keys and its aggregates. -/
theorem groupFrom_stable {d : Doc} {s : Stage} (hd : d.Keyed) (h : groupFrom d = .ok s) :
    s.Stable := by
  obtain ⟨group, hgroup, h⟩ := Result.bind_eq_ok.1 h
  rw [asMap_eq_ok hgroup] at hd
  obtain ⟨_, -, h⟩ := Result.bind_eq_ok.1 h
  obtain ⟨by_, hby, h⟩ := Result.bind_eq_ok.1 h
  obtain ⟨aggs, haggs, h⟩ := Result.bind_eq_ok.1 h
  cases h
  have hkeys : ∀ e ∈ by_.getD [], e.Stable := by
    intro e he
    obtain ⟨d, es, -, hes, he⟩ := mem_of_optional hby he
    exact exprsFrom_stable hes e he
  have hnamed : NamedStable (aggs.getD []) := by
    cases aggs with
    | none => exact .nil
    | some named =>
      obtain ⟨d, hfind, hread⟩ := optional_eq_ok haggs rfl
      exact namedExprsFrom_stable (keyed_of_find hd.2 hfind) hread
  generalize by_.getD [] = by_ at hkeys ⊢
  generalize aggs.getD [] = aggs at hnamed ⊢
  constructor
  · have hback : exprsFrom (.array (by_.map exprToDoc)) "group" "by" = .ok by_ :=
      array_back hkeys "group" "by"
    simp [stageToDoc, stageFrom, asMap, groupFrom, only_eq_ok.2, optional, hback, hnamed.back]
  · simp [stageToDoc, Stable.keyedItems hkeys, hnamed.keyed]

/-- The stage of `limit` and `offset` is written back as it is read. -/
theorem limitFrom_stable {map : Entries} {s : Stage} (h : limitFrom map = .ok s) :
    s.Stable := by
  obtain ⟨_, -, h⟩ := Result.bind_eq_ok.1 h
  obtain ⟨limit, hlimit, h⟩ := Result.bind_eq_ok.1 h
  obtain ⟨offset, hoffset, h⟩ := Result.bind_eq_ok.1 h
  cases h
  have hl : ∀ n, limit = some n → n < 2 ^ 63 := by
    intro n hn
    obtain ⟨d, -, hd⟩ := optional_eq_ok hlimit hn
    exact asU64_lt hd
  have ho : offset.getD 0 < 2 ^ 63 := by
    cases offset with
    | none => decide
    | some n =>
      obtain ⟨d, -, hd⟩ := optional_eq_ok hoffset rfl
      exact asU64_lt hd
  generalize offset.getD 0 = offset at ho ⊢
  cases limit with
  | none =>
    constructor
    · simp [stageToDoc, field, stageFrom, asMap, limitFrom, only_eq_ok.2, optional,
        asU64_countToDoc ho]
    · simp [stageToDoc, field, countToDoc]
  | some n =>
    constructor
    · simp [stageToDoc, field, stageFrom, asMap, limitFrom, only_eq_ok.2, optional,
        asU64_countToDoc ho, asU64_countToDoc (hl n rfl)]
    · simp [stageToDoc, field, countToDoc]

/-- Every stage of a pipeline is written back as it is read. -/
theorem stageFrom_stable {d : Doc} {s : Stage} (hd : d.Keyed) (h : stageFrom d = .ok s) :
    s.Stable := by
  obtain ⟨map, hmap, h⟩ := Result.bind_eq_ok.1 h
  rw [asMap_eq_ok hmap] at hd
  split at h
  -- `limit` and `offset` share one map, so the decoder tries them before the one-key stages
  · exact limitFrom_stable h
  · split at h
    · next name body _ =>
      -- one case a stage, in the order of the source
      have hbody : body.Keyed := hd.2.1
      split at h
      · obtain ⟨table, -, h⟩ := Result.bind_eq_ok.1 h
        cases h
        have htable := tableRef_stable "scan" table
        exact ⟨by simp [stageToDoc, stageFrom, asMap, htable.back],
          by simp [stageToDoc, htable.keyed]⟩
      · obtain ⟨e, he, h⟩ := Result.bind_eq_ok.1 h
        cases h
        have hstable := exprFrom_stable he
        exact ⟨by simp [stageToDoc, stageFrom, asMap, hstable.back],
          by simp [stageToDoc, hstable.keyed]⟩
      · obtain ⟨j, hj, h⟩ := Result.bind_eq_ok.1 h
        cases h
        have hstable := joinSpecFrom_stable hj
        exact ⟨by simp [stageToDoc, stageFrom, asMap, hstable.back],
          by simp [stageToDoc, hstable.keyed]⟩
      · exact groupFrom_stable hbody h
      · obtain ⟨keys, hkeys, h⟩ := Result.bind_eq_ok.1 h
        cases h
        have hstable := sortKeysFrom_stable hkeys "sort"
        have hback : sortKeysFrom (.array (keys.map sortKeyToDoc)) "sort" "sort" = .ok keys :=
          array_back hstable "sort" "sort"
        exact ⟨by simp [stageToDoc, stageFrom, asMap, hback],
          by simp [stageToDoc, Stable.keyedItems hstable]⟩
      · obtain ⟨items, hitems, h⟩ := Result.bind_eq_ok.1 h
        cases h
        have hstable := projectionsFrom_stable hitems
        have hback : projectionsFrom (.array (items.map projectionToDoc)) "project" "project"
            = .ok items := array_back hstable "project" "project"
        exact ⟨by simp [stageToDoc, stageFrom, asMap, hback],
          by simp [stageToDoc, Stable.keyedItems hstable]⟩
      · obtain ⟨on, -, h⟩ := Result.bind_eq_ok.1 h
        cases h
        exact ⟨by simp [stageToDoc, stageFrom, asMap, asBool], by simp [stageToDoc]⟩
      · obtain ⟨token, -, h⟩ := Result.bind_eq_ok.1 h
        cases h
        exact ⟨by simp [stageToDoc, stageFrom, asMap, tokenFrom], by simp [stageToDoc]⟩
      · cases h
    · cases h

/-! ## Selects -/

/-- The fields that come before those of the operation. -/
def Lead (lead : Entries) : Prop := ∀ e ∈ lead, e.1 ∈ ["op", "v"]

/-- The leading fields of a message hide none of its body. -/
theorem Lead.find {lead rest : Entries} (h : Lead lead) {key : String} (hkey : key ∉ ["op", "v"]) :
    Proto.find (lead ++ rest) key = Proto.find rest key := by
  have hnone : Proto.find lead key = none := by
    cases hfind : Proto.find lead key with
    | none => rfl
    | some d => exact absurd (h _ (mem_of_find hfind)) hkey
  rw [find_append, hnone, Option.none_or]

theorem Lead.only {lead rest : Entries} (h : Lead lead) {node : String} {allowed : List String}
    (hlead : ∀ name ∈ ["op", "v"], name ∈ allowed) (hrest : ∀ e ∈ rest, e.1 ∈ allowed) :
    Proto.only (lead ++ rest) node allowed = .ok () := by
  rw [only_eq_ok]
  intro e he
  rcases List.mem_append.1 he with he | he
  · exact hlead e.1 (h e he)
  · exact hrest e he

/-- A clause select whose parts come back. -/
structure ClauseSelect.Stable (c : ClauseSelect) : Prop where
  «from» : ∃ t, c.from = some t
  joins : ∀ j ∈ c.joins, j.Stable
  where_ : ∀ e, c.where_ = some e → e.Stable
  groupBy : ∀ e ∈ c.groupBy, e.Stable
  having : ∀ e, c.having = some e → e.Stable
  orderBy : ∀ k ∈ c.orderBy, Proto.Stable (sortKeyFrom "order_by") sortKeyToDoc k
  select : ∀ items, c.select = some items →
    ∀ p ∈ items, Proto.Stable projectionFrom projectionToDoc p
  limit : ∀ n, c.limit = some n → n < 2 ^ 63
  offset : ∀ n, c.offset = some n → n < 2 ^ 63

/-- A clause select that decodes has stable clauses. -/
theorem clauseFrom_stable {map : Entries} {c : ClauseSelect} (h : clauseFrom map = .ok c) :
    c.Stable := by
  -- the clauses as they are decoded, one after another
  obtain ⟨fromDoc, -, h⟩ := Result.bind_eq_ok.1 h
  obtain ⟨table, -, h⟩ := Result.bind_eq_ok.1 h
  obtain ⟨joins, hjoins, h⟩ := Result.bind_eq_ok.1 h
  obtain ⟨where_, hwhere, h⟩ := Result.bind_eq_ok.1 h
  obtain ⟨groupBy, hgroup, h⟩ := Result.bind_eq_ok.1 h
  obtain ⟨having, hhaving, h⟩ := Result.bind_eq_ok.1 h
  obtain ⟨orderBy, horder, h⟩ := Result.bind_eq_ok.1 h
  obtain ⟨select, hselect, h⟩ := Result.bind_eq_ok.1 h
  obtain ⟨distinct, -, h⟩ := Result.bind_eq_ok.1 h
  obtain ⟨limit, hlimit, h⟩ := Result.bind_eq_ok.1 h
  obtain ⟨offset, hoffset, h⟩ := Result.bind_eq_ok.1 h
  obtain ⟨cursor, -, h⟩ := Result.bind_eq_ok.1 h
  cases h
  constructor
  · exact ⟨table, rfl⟩
  · intro j hj
    obtain ⟨d, js, -, hd, hj⟩ := mem_of_optional hjoins hj
    exact joinsFrom_stable hd j hj
  · intro e he
    obtain ⟨d, -, hd⟩ := optional_eq_ok hwhere he
    exact exprFrom_stable hd
  · intro e he
    obtain ⟨d, es, -, hd, he⟩ := mem_of_optional hgroup he
    exact exprsFrom_stable hd e he
  · intro e he
    obtain ⟨d, -, hd⟩ := optional_eq_ok hhaving he
    exact exprFrom_stable hd
  · intro k hk
    obtain ⟨d, ks, -, hd, hk⟩ := mem_of_optional horder hk
    exact sortKeysFrom_stable hd "order_by" k hk
  · intro items hitems
    obtain ⟨d, -, hd⟩ := optional_eq_ok hselect hitems
    exact projectionsFrom_stable hd
  · intro n hn
    obtain ⟨d, -, hd⟩ := optional_eq_ok hlimit hn
    exact asU64_lt hd
  · intro n hn
    obtain ⟨d, -, hd⟩ := optional_eq_ok hoffset hn
    exact asU64_lt hd

/-- A list field is read back, the empty list from its absence. -/
theorem optional_listField {α : Type} {map : Entries} {key : String} {write : α → Doc}
    {as : List α} {f : Doc → ProtoResult (List α)}
    (h : find map key = if as.isEmpty then none else some (.array (as.map write)))
    (hf : f (.array (as.map write)) = .ok as) :
    ∃ o, optional map key f = .ok o ∧ o.getD [] = as := by
  cases as with
  | nil => exact ⟨none, optional_of_none h, rfl⟩
  | cons a as => exact ⟨some (a :: as), optional_of_some h hf, rfl⟩

/-- Each clause is found under its own name in what the select encodes to. -/
theorem find_clause (c : ClauseSelect) :
    let entries := selectEntries (.clause c)
    find entries "pipeline" = none ∧
    find entries "from" = c.from.map tableRefToDoc ∧
    find entries "joins"
      = (if c.joins.isEmpty then none else some (.array (c.joins.map joinSpecToDoc))) ∧
    find entries "where" = c.where_.map exprToDoc ∧
    find entries "group_by"
      = (if c.groupBy.isEmpty then none else some (.array (c.groupBy.map exprToDoc))) ∧
    find entries "having" = c.having.map exprToDoc ∧
    find entries "order_by"
      = (if c.orderBy.isEmpty then none else some (.array (c.orderBy.map sortKeyToDoc))) ∧
    find entries "select" = c.select.map (fun items => .array (items.map projectionToDoc)) ∧
    find entries "distinct" = (if c.distinct then some (.bool true) else none) ∧
    find entries "limit" = c.limit.map countToDoc ∧
    find entries "offset" = c.offset.map countToDoc ∧
    find entries "cursor" = c.cursor.map .bin := by
  refine ⟨?_, ?_, ?_, ?_, ?_, ?_, ?_, ?_, ?_, ?_, ?_, ?_⟩
  all_goals simp [selectEntries, listField]

/-- A clause select of stable clauses is decoded from its encoding behind any leading fields. -/
theorem ClauseSelect.Stable.back {lead : Entries} (hlead : Lead lead) {c : ClauseSelect}
    (h : c.Stable) : clauseFrom (lead ++ selectEntries (.clause c)) = .ok c := by
  obtain ⟨-, hfrom, hjoins, hwhere, hgroup, hhaving, horder, hselect, hdistinct, hlimit, hoffset,
    hcursor⟩ := find_clause c
  obtain ⟨table, htable⟩ := h.from
  rw [htable] at hfrom
  generalize hmap : lead ++ selectEntries (.clause c) = map
  have hfind : ∀ key o, key ∉ ["op", "v"] → find (selectEntries (.clause c)) key = o →
      find map key = o := by
    intro key o hkey ho
    rw [← hmap, hlead.find hkey, ho]
  have hreq : req map "select" "from" = .ok (tableRefToDoc table) :=
    req_of_find (hfind _ _ (by decide) hfrom)
  obtain ⟨joins, hj, hjs⟩ := optional_listField (f := (joinsFrom · "select" "joins"))
    (hfind _ _ (by decide) hjoins) (array_back h.joins "select" "joins")
  have hw := optional_of_map (hfind _ _ (by decide) hwhere) (fun e he => (h.where_ e he).back)
  obtain ⟨groupBy, hg, hgs⟩ := optional_listField (f := (exprsFrom · "select" "group_by"))
    (hfind _ _ (by decide) hgroup) (array_back h.groupBy "select" "group_by")
  have hh := optional_of_map (hfind _ _ (by decide) hhaving) (fun e he => (h.having e he).back)
  obtain ⟨orderBy, ho, hos⟩ := optional_listField (f := (sortKeysFrom · "select" "order_by"))
    (hfind _ _ (by decide) horder) (array_back h.orderBy "select" "order_by")
  have hs := optional_of_map (f := (projectionsFrom · "select" "select"))
    (hfind _ _ (by decide) hselect)
    (fun items hitems => array_back (h.select items hitems) "select" "select")
  -- `distinct` is written only when it is set, and read as unset when it is missing
  obtain ⟨distinct, hd, hds⟩ : ∃ o, optional map "distinct" (asBool · "select" "distinct") = .ok o ∧
      o.getD false = c.distinct := by
    have hd := hfind _ _ (by decide) hdistinct
    cases hc : c.distinct with
    | false =>
      rw [hc] at hd
      exact ⟨none, optional_of_none hd, rfl⟩
    | true =>
      rw [hc] at hd
      exact ⟨some true, optional_of_some hd rfl, rfl⟩
  have hl := optional_of_map (f := (asU64 · "select" "limit")) (hfind _ _ (by decide) hlimit)
    (fun n hn => asU64_countToDoc (h.limit n hn))
  have hoff := optional_of_map (f := (asU64 · "select" "offset")) (hfind _ _ (by decide) hoffset)
    (fun n hn => asU64_countToDoc (h.offset n hn))
  have hc := optional_of_map (f := (tokenFrom · "select" "cursor"))
    (hfind _ _ (by decide) hcursor) (fun _ _ => rfl)
  rw [clauseFrom, hreq, Result.ok_bind, (tableRef_stable "from" table).back, Result.ok_bind, hj,
    Result.ok_bind, hw, Result.ok_bind, hg, Result.ok_bind, hh, Result.ok_bind, ho,
    Result.ok_bind, hs, Result.ok_bind, hd, Result.ok_bind, hl, Result.ok_bind, hoff,
    Result.ok_bind, hc, Result.ok_bind, hjs, hgs, hos, hds, ← htable]
  rfl

/-- The keys of the clause form, in the order they are written. -/
def clauseFields : List String :=
  ["from", "joins", "where", "group_by", "having", "order_by", "select", "distinct", "limit",
    "offset", "cursor"]

theorem keys_clause (c : ClauseSelect) :
    ((selectEntries (.clause c)).map Prod.fst).Sublist clauseFields := by
  simp only [selectEntries, listField, List.map_append]
  have happ : ∀ {name : String} {names : List String} {keys : List String} (o : Option Doc),
      keys.Sublist names → (keys ++ (field name o).map Prod.fst).Sublist (names ++ [name]) :=
    fun o h => h.append (keys_field _ o)
  exact happ _ (happ _ (happ _ (happ _ (happ _ (happ _ (happ _ (happ _ (happ _ (happ _
    (keys_field "from" _))))))))))

/-- What a stable clause select encodes to has no key twice at any level. -/
theorem ClauseSelect.Stable.keyed {c : ClauseSelect} (h : c.Stable) :
    Doc.KeyedEntries (selectEntries (.clause c)) := by
  have happ : ∀ {a b : Entries}, Doc.KeyedEntries a → Doc.KeyedEntries b →
      Doc.KeyedEntries (a ++ b) := by
    intro a b ha hb
    rw [Doc.keyedEntries_iff] at ha hb ⊢
    intro e he
    rcases List.mem_append.1 he with he | he
    · exact ha e he
    · exact hb e he
  have hmap : ∀ {α : Type} {name : String} {write : α → Doc} {o : Option α},
      (∀ a, o = some a → (write a).Keyed) → Doc.KeyedEntries (field name (o.map write)) := by
    intro α name write o hall
    apply keyed_field
    intro d hd
    obtain ⟨a, ha, rfl⟩ := Option.map_eq_some_iff.1 hd
    exact hall a ha
  have hlist : ∀ {α : Type} {name : String} {read : Doc → ProtoResult α} {write : α → Doc}
      {as : List α}, (∀ a ∈ as, Proto.Stable read write a) →
      Doc.KeyedEntries (listField name write as) := by
    intro α name read write as hall
    apply keyed_field
    intro d hd
    split at hd
    · cases hd
    · cases hd
      exact Proto.Stable.keyedItems hall
  -- one clause after another, in the order they are written
  refine happ (happ (happ (happ (happ (happ (happ (happ (happ (happ ?_ ?_) ?_) ?_) ?_) ?_) ?_) ?_)
    ?_) ?_) ?_
  · exact hmap fun t _ => (tableRef_stable "from" t).keyed
  · exact hlist h.joins
  · exact hmap fun e he => (h.where_ e he).keyed
  · exact hlist h.groupBy
  · exact hmap fun e he => (h.having e he).keyed
  · exact hlist h.orderBy
  · exact hmap fun items hitems => Proto.Stable.keyedItems (h.select items hitems)
  · apply keyed_field
    intro d hd
    split at hd
    · cases hd
      trivial
    · cases hd
  · exact hmap fun n _ => trivial
  · exact hmap fun n _ => trivial
  · exact hmap fun n _ => trivial

def Select.Stable : Select → Prop
  | .pipeline stages => ∀ s ∈ stages, s.Stable
  | .clause c => c.Stable

/-- A select that decodes is stable, in the clause form and in the pipeline form. -/
theorem selectFrom_stable {map : Entries} {select : Select} (hmap : Doc.KeyedEntries map)
    (h : selectFrom map = .ok select) : select.Stable := by
  obtain ⟨_, -, h⟩ := Result.bind_eq_ok.1 h
  split at h
  · next stages hfind =>
    obtain ⟨_, -, h⟩ := Result.bind_eq_ok.1 h
    obtain ⟨items, hitems, h⟩ := Result.bind_eq_ok.1 h
    obtain ⟨out, hout, h⟩ := Result.bind_eq_ok.1 h
    cases h
    have hkeyed := keyed_of_find hmap hfind
    rw [asArray_eq_ok hitems] at hkeyed
    intro s hs
    obtain ⟨d, hd, hread⟩ := Result.mem_of_mapM hout hs
    exact stageFrom_stable (Doc.keyedItems_iff.1 hkeyed d hd) hread
  · obtain ⟨c, hc, h⟩ := Result.bind_eq_ok.1 h
    cases h
    exact clauseFrom_stable hc

theorem keys_select (select : Select) :
    ((selectEntries select).map Prod.fst).Sublist ("pipeline" :: clauseFields) := by
  cases select with
  | pipeline stages => exact (List.nil_sublist _).cons_cons _
  | clause c => exact (keys_clause c).cons _

theorem Select.Stable.keyed {select : Select} (h : select.Stable) :
    Doc.KeyedEntries (selectEntries select) := by
  cases select with
  | pipeline stages => exact ⟨Proto.Stable.keyedItems h, trivial⟩
  | clause c => exact ClauseSelect.Stable.keyed h

/-- A stable select is decoded from its own encoding behind any leading fields. -/
theorem Select.Stable.back {lead : Entries} (hlead : Lead lead) {select : Select}
    (h : select.Stable) : selectFrom (lead ++ selectEntries select) = .ok select := by
  have hmem : ∀ e ∈ selectEntries select, e.1 ∈ clauseKeys := by
    intro e he
    have hkey := (keys_select select).subset (List.mem_map_of_mem he)
    revert hkey
    generalize e.1 = key
    intro hkey
    have hall : ∀ key ∈ "pipeline" :: clauseFields, key ∈ clauseKeys := by decide
    exact hall key hkey
  rw [selectFrom, hlead.only (by decide) hmem, Result.ok_bind, hlead.find (by decide)]
  cases select with
  | pipeline stages =>
    have hback : (stages.map stageToDoc).mapM stageFrom = .ok stages := Proto.Stable.mapM h
    have honly : ∀ e ∈ selectEntries (.pipeline stages), e.1 ∈ ["op", "v", "pipeline"] := by
      intro e he
      rw [List.mem_singleton.1 he]
      simp
    have hlead' : only (lead ++ selectEntries (.pipeline stages)) "select" ["op", "v", "pipeline"]
        = .ok () := hlead.only (by decide) honly
    rw [selectEntries] at hlead' ⊢
    simp [hlead', asArray, hback]
  | clause c =>
    rw [(find_clause c).1]
    show (clauseFrom _ >>= _) = _
    rw [ClauseSelect.Stable.back hlead h]
    rfl

/-! ## Writes -/

/-- The value comes back, if its wire form is not too long to be a message. -/
def ValueStable (v : Value) : Prop :=
  (encodeDoc (rowValueToDoc v)).length ≤ DecodeLimits.default.maxBytes →
    rowValueFrom (rowValueToDoc v) = v ∧ (rowValueToDoc v).Keyed

/-- A container is decoded to itself, or its bytes are too long and go out as they are. -/
theorem json_stable {d : Doc} (hd : d.Accepted .default)
    (hvalue : rowValueFrom d = .json (encodeDoc d)) : ValueStable (.json (encodeDoc d)) := by
  intro hlen
  by_cases hfit : (encodeDoc d).length ≤ DecodeLimits.default.maxBytes
  · have hback : rowValueToDoc (.json (encodeDoc d)) = d := by
      rw [rowValueToDoc, decodeDoc_encodeDoc hd.keyed ⟨hfit, hd.depth, hd.nodes⟩ (by decide)]
    rw [hback]
    exact ⟨hvalue, hd.keyed⟩
  · have hbin : rowValueToDoc (.json (encodeDoc d)) = .bin (encodeDoc d) := by
      rw [rowValueToDoc, decodeDoc, if_pos (by omega)]
    have hlong : (encodeDoc d).length ≤ (encodeDoc (.bin (encodeDoc d))).length := by
      rw [encodeDoc.eq_def (.bin _), writeDoc, writeBin, List.length_append]
      omega
    rw [hbin] at hlen
    omega

/-- A cell of a row is written back as a document that reads as the same cell. -/
theorem rowValueFrom_stable {d : Doc} (hd : d.Accepted .default) :
    ValueStable (rowValueFrom d) := by
  cases d with
  | array items => exact json_stable hd rfl
  | map entries => exact json_stable hd rfl
  | _ => exact fun _ => ⟨rfl, trivial⟩

structure Insert.Stable (ins : Insert) : Prop where
  names : ∀ row ∈ ins.rows, (row.map Prod.fst).Nodup
  values : ∀ row ∈ ins.rows, ∀ e ∈ row, ValueStable e.2

/-- An insert that decodes is stable. -/
theorem insertFrom_stable {map : Entries} {ins : Insert} (hmap : (Doc.map map).Accepted .default)
    (h : insertFrom map = .ok ins) : ins.Stable := by
  obtain ⟨_, -, h⟩ := Result.bind_eq_ok.1 h
  obtain ⟨table, -, h⟩ := Result.bind_eq_ok.1 h
  obtain ⟨rowsDoc, hrows, h⟩ := Result.bind_eq_ok.1 h
  obtain ⟨items, hitems, h⟩ := Result.bind_eq_ok.1 h
  obtain ⟨rows, hread, h⟩ := Result.bind_eq_ok.1 h
  cases h
  have hdoc := hmap.entry (mem_of_find (req_eq_ok hrows))
  rw [show ("rows", rowsDoc).2 = .array items from asArray_eq_ok hitems] at hdoc
  have hrow : ∀ row ∈ rows, ∃ entries : Entries, (Doc.map entries).Accepted .default ∧
      row = entries.map (fun e => (e.1, rowValueFrom e.2)) := by
    intro row hr
    obtain ⟨d, hd, hread⟩ := Result.mem_of_mapM hread hr
    obtain ⟨entries, hentries, hread⟩ := Result.bind_eq_ok.1 hread
    cases hread
    have haccepted := hdoc.item hd
    rw [asMap_eq_ok hentries] at haccepted
    exact ⟨entries, haccepted, rfl⟩
  constructor
  · intro row hr
    obtain ⟨entries, haccepted, rfl⟩ := hrow row hr
    rw [List.map_map]
    exact haccepted.keyed.1
  · intro row hr e he
    obtain ⟨entries, haccepted, rfl⟩ := hrow row hr
    obtain ⟨x, hx, rfl⟩ := List.mem_map.1 he
    exact rowValueFrom_stable (haccepted.entry hx)

/-- The wire form of a row, when none of its values is too long. -/
theorem rowFrom_back {row : List (String × Value)} (hnames : (row.map Prod.fst).Nodup)
    (hvalues : ∀ e ∈ row, rowValueFrom (rowValueToDoc e.2) = e.2 ∧ (rowValueToDoc e.2).Keyed) :
    Stable rowFrom rowToDoc row := by
  constructor
  · show Except.ok ((row.map fun e => (e.1, rowValueToDoc e.2)).map
      fun e => (e.1, rowValueFrom e.2)) = _
    rw [List.map_map]
    have hid : ∀ e ∈ row, ((fun e => (e.1, rowValueFrom e.2)) ∘
        (fun e : String × Value => (e.1, rowValueToDoc e.2))) e = e := by
      intro e he
      exact Prod.ext rfl (hvalues e he).1
    rw [List.map_congr_left hid, List.map_id']
  · constructor
    · rw [List.map_map]
      exact hnames
    · rw [Doc.keyedEntries_iff]
      intro e he
      obtain ⟨x, hx, rfl⟩ := List.mem_map.1 he
      exact (hvalues x hx).2

/-- The rows come back when the insert is short enough to be a message. -/
theorem Insert.Stable.rows {ins : Insert} (h : ins.Stable)
    (hlen : (writeEntries (insertEntries ins)).length ≤ DecodeLimits.default.maxBytes) :
    ∀ row ∈ ins.rows, Proto.Stable rowFrom rowToDoc row := by
  intro row hrow
  apply rowFrom_back (h.names row hrow)
  intro e he
  apply h.values row hrow e he
  -- the value is nested in its row, the row in the list of rows
  have hvalue := Doc.writeDoc_le_entries
    (List.mem_map_of_mem (f := fun e : String × Value => (e.1, rowValueToDoc e.2)) he)
  have hitem := Doc.writeDoc_le_items (List.mem_map_of_mem (f := rowToDoc) hrow)
  have hrows := Doc.writeDoc_le_entries (e := ("rows", .array (ins.rows.map rowToDoc)))
    (show _ ∈ insertEntries ins by simp [insertEntries])
  rw [rowToDoc, writeDoc, List.length_append] at hitem
  rw [writeDoc, List.length_append] at hrows
  show (writeDoc (rowValueToDoc e.2)).length ≤ _
  dsimp only at hvalue
  omega

/-- An insert of stable rows is decoded from its own encoding. -/
theorem Insert.Stable.back {lead : Entries} (hlead : Lead lead) {ins : Insert}
    (hrows : ∀ row ∈ ins.rows, Proto.Stable rowFrom rowToDoc row) :
    insertFrom (lead ++ insertEntries ins) = .ok ins := by
  have honly : ∀ e ∈ insertEntries ins, e.1 ∈ ["op", "v", "table", "rows"] := by
    simp [insertEntries]
  have htable : find (lead ++ insertEntries ins) "table" = some (.str ins.table) := by
    rw [hlead.find (by decide)]
    simp [insertEntries]
  have hdoc : find (lead ++ insertEntries ins) "rows" = some (.array (ins.rows.map rowToDoc)) := by
    rw [hlead.find (by decide)]
    simp [insertEntries]
  rw [insertFrom, hlead.only (by decide) honly, Result.ok_bind, reqStr_of_find htable,
    Result.ok_bind, req_of_find hdoc, Result.ok_bind]
  show ((ins.rows.map rowToDoc).mapM rowFrom >>= _) = _
  rw [Proto.Stable.mapM hrows]
  rfl

theorem Insert.Stable.keyed {ins : Insert}
    (hrows : ∀ row ∈ ins.rows, Proto.Stable rowFrom rowToDoc row) :
    Doc.KeyedEntries (insertEntries ins) :=
  ⟨trivial, Proto.Stable.keyedItems hrows, trivial⟩

def SelectorStable (selector : Option Selector) : Prop :=
  ∀ e, selector = some (.where_ e) → e.Stable

/-- A selector is written back as it is read: a filter, all rows, or nothing. -/
theorem selectorFrom_stable {map : Entries} {node : String} {selector : Option Selector}
    (h : selectorFrom map node = .ok selector) : SelectorStable selector := by
  intro e he
  rw [selectorFrom] at h
  split at h
  · cases h
  · obtain ⟨pred, hpred, h⟩ := Result.bind_eq_ok.1 h
    cases h
    cases he
    exact exprFrom_stable hpred
  · obtain ⟨all, -, h⟩ := Result.bind_eq_ok.1 h
    split at h
    · cases h
      cases he
    · cases h
  · cases h
    cases he

/-- A selector is read back from the fields it is written as. -/
theorem SelectorStable.back {map : Entries} {node : String} {selector : Option Selector}
    (h : SelectorStable selector)
    (hwhere : find map "where" = find (selectorEntries selector) "where")
    (hall : find map "all" = find (selectorEntries selector) "all") :
    selectorFrom map node = .ok selector := by
  match selector with
  | none =>
    simp only [selectorEntries, find_nil] at hwhere hall
    rw [selectorFrom, hwhere, hall]
  | some .all =>
    simp [selectorEntries] at hwhere hall
    rw [selectorFrom, hwhere, hall]
    rfl
  | some (.where_ pred) =>
    simp [selectorEntries] at hwhere hall
    rw [selectorFrom, hwhere, hall]
    show (exprFrom (exprToDoc pred) >>= _) = _
    rw [(h pred rfl).back]
    rfl

theorem SelectorStable.keyed {selector : Option Selector} (h : SelectorStable selector) :
    Doc.KeyedEntries (selectorEntries selector) := by
  match selector with
  | none => trivial
  | some .all => exact ⟨trivial, trivial⟩
  | some (.where_ pred) => exact ⟨(h pred rfl).keyed, trivial⟩

structure Update.Stable (upd : Update) : Prop where
  selector : SelectorStable upd.selector
  set : NamedStable upd.set

/-- An update that decodes is stable. -/
theorem updateFrom_stable {map : Entries} {upd : Update} (hmap : Doc.KeyedEntries map)
    (h : updateFrom map = .ok upd) : upd.Stable := by
  obtain ⟨_, -, h⟩ := Result.bind_eq_ok.1 h
  obtain ⟨table, -, h⟩ := Result.bind_eq_ok.1 h
  obtain ⟨selector, hselector, h⟩ := Result.bind_eq_ok.1 h
  obtain ⟨setDoc, hset, h⟩ := Result.bind_eq_ok.1 h
  obtain ⟨set, hread, h⟩ := Result.bind_eq_ok.1 h
  obtain ⟨unconditional, -, h⟩ := Result.bind_eq_ok.1 h
  cases h
  exact ⟨selectorFrom_stable hselector,
    namedExprsFrom_stable (keyed_of_find hmap (req_eq_ok hset)) hread⟩

/-- A stable update is decoded from its own encoding. -/
theorem Update.Stable.back {lead : Entries} (hlead : Lead lead) {upd : Update} (h : upd.Stable) :
    updateFrom (lead ++ updateEntries upd) = .ok upd := by
  obtain ⟨table, selector, set, unconditional⟩ := upd
  generalize hmap : lead ++ updateEntries _ = map
  -- the leading fields are `op` and `v`, which the body has none of
  have hfind : ∀ key, key ∉ ["op", "v"] →
      find map key = find (updateEntries ⟨table, selector, set, unconditional⟩) key := by
    intro key hkey
    rw [← hmap, hlead.find hkey]
  have honly : only map "update" ["op", "v", "table", "where", "all", "set", "unconditional"]
      = .ok () := by
    rw [← hmap]
    apply hlead.only (by decide)
    match selector, unconditional with
    | none, false | none, true | some .all, false | some .all, true | some (.where_ _), false
    | some (.where_ _), true => simp [updateEntries, selectorEntries, field]
  have htable : find map "table" = some (.str table) := by
    rw [hfind _ (by decide)]
    simp [updateEntries]
  have hset : find map "set" = some (namedExprsToDoc set) := by
    rw [hfind _ (by decide)]
    match selector with
    | none | some .all | some (.where_ _) => simp [updateEntries, selectorEntries]
  have hselector : selectorFrom map "update" = .ok selector := by
    apply h.selector.back
    · rw [hfind _ (by decide)]
      simp [updateEntries]
    · rw [hfind _ (by decide)]
      simp [updateEntries]
  have huncond : find map "unconditional" = if unconditional then some (.bool true) else none := by
    rw [hfind _ (by decide)]
    match selector with
    | none | some .all | some (.where_ _) => simp [updateEntries, selectorEntries]
  -- the fields are decoded in the order of the source
  rw [updateFrom, honly, Result.ok_bind, reqStr_of_find htable, Result.ok_bind, hselector,
    Result.ok_bind, req_of_find hset, Result.ok_bind, h.set.back, Result.ok_bind]
  cases unconditional with
  | false =>
    rw [optional_of_none huncond]
    rfl
  | true =>
    rw [optional_of_some (a := true) huncond rfl]
    rfl

/-- What a stable update encodes to has no key twice at any level. -/
theorem Update.Stable.keyed {upd : Update} (h : upd.Stable) :
    Doc.KeyedEntries (updateEntries upd) := by
  obtain ⟨table, selector, set, unconditional⟩ := upd
  have hselector : Doc.KeyedEntries (selectorEntries selector) := h.selector.keyed
  have hset : (namedExprsToDoc set).Keyed := h.set.keyed
  rw [Doc.keyedEntries_iff] at hselector ⊢
  intro e he
  rw [updateEntries, List.mem_append, List.mem_append, List.mem_append] at he
  rcases he with ((he | he) | he) | he
  · rw [List.mem_singleton.1 he]
    trivial
  · exact hselector e he
  · rw [List.mem_singleton.1 he]
    exact hset
  · cases unconditional with
    | false => cases he
    | true =>
      rw [List.mem_singleton.1 he]
      trivial

structure Delete.Stable (del : Delete) : Prop where
  selector : SelectorStable del.selector

/-- A delete that decodes is stable. -/
theorem deleteFrom_stable {map : Entries} {del : Delete} (h : deleteFrom map = .ok del) :
    del.Stable := by
  obtain ⟨_, -, h⟩ := Result.bind_eq_ok.1 h
  obtain ⟨table, -, h⟩ := Result.bind_eq_ok.1 h
  obtain ⟨selector, hselector, h⟩ := Result.bind_eq_ok.1 h
  cases h
  exact ⟨selectorFrom_stable hselector⟩

/-- A stable delete is decoded from its own encoding. -/
theorem Delete.Stable.back {lead : Entries} (hlead : Lead lead) {del : Delete} (h : del.Stable) :
    deleteFrom (lead ++ deleteEntries del) = .ok del := by
  obtain ⟨table, selector⟩ := del
  have honly : ∀ e ∈ deleteEntries ⟨table, selector⟩,
      e.1 ∈ ["op", "v", "table", "where", "all"] := by
    match selector with
    | none | some .all | some (.where_ _) => simp [deleteEntries, selectorEntries]
  have htable : find (lead ++ deleteEntries ⟨table, selector⟩) "table" = some (.str table) := by
    rw [hlead.find (by decide)]
    simp [deleteEntries]
  have hselector : selectorFrom (lead ++ deleteEntries ⟨table, selector⟩) "delete"
      = .ok selector := by
    apply h.selector.back
    · rw [hlead.find (by decide)]
      simp [deleteEntries]
    · rw [hlead.find (by decide)]
      simp [deleteEntries]
  rw [deleteFrom, hlead.only (by decide) honly, Result.ok_bind, reqStr_of_find htable,
    Result.ok_bind, hselector]
  rfl

theorem Delete.Stable.keyed {del : Delete} (h : del.Stable) :
    Doc.KeyedEntries (deleteEntries del) :=
  ⟨trivial, h.selector.keyed⟩

/-! ## Requests -/

/-- A write that comes back. -/
def Request.OpStable : Request → Prop
  | .insert ins => ins.Stable
  | .update upd => upd.Stable
  | .delete del => del.Stable
  | _ => False

/-- A request whose parts come back. -/
def Request.Stable : Request → Prop
  | .select sel => sel.Stable
  | .explain sel => sel.Stable
  | .transaction ops => ∀ op ∈ ops, op.OpStable
  | op => op.OpStable

/-- An operation of a transaction that decodes is stable. -/
theorem opFrom_stable {d : Doc} {op : Request} (hd : d.Accepted .default)
    (h : opFrom d = .ok op) : op.OpStable := by
  obtain ⟨map, hmap, h⟩ := Result.bind_eq_ok.1 h
  rw [asMap_eq_ok hmap] at hd
  obtain ⟨name, -, h⟩ := Result.bind_eq_ok.1 h
  split at h
  · obtain ⟨ins, hins, h⟩ := Result.bind_eq_ok.1 h
    cases h
    exact insertFrom_stable hd hins
  · obtain ⟨upd, hupd, h⟩ := Result.bind_eq_ok.1 h
    cases h
    exact updateFrom_stable hd.keyed.2 hupd
  · obtain ⟨del, hdel, h⟩ := Result.bind_eq_ok.1 h
    cases h
    exact deleteFrom_stable hdel
  · cases h

/-- Every request that decodes is stable. -/
theorem requestFromDoc_stable {d : Doc} {r : Request} (hd : d.Accepted .default)
    (h : requestFromDoc d = .ok r) : r.Stable := by
  obtain ⟨map, hmap, h⟩ := Result.bind_eq_ok.1 h
  rw [asMap_eq_ok hmap] at hd
  obtain ⟨_, -, h⟩ := Result.bind_eq_ok.1 h
  obtain ⟨name, -, h⟩ := Result.bind_eq_ok.1 h
  split at h
  · obtain ⟨select, hselect, h⟩ := Result.bind_eq_ok.1 h
    cases h
    exact selectFrom_stable hd.keyed.2 hselect
  · obtain ⟨ins, hins, h⟩ := Result.bind_eq_ok.1 h
    cases h
    exact insertFrom_stable hd hins
  · obtain ⟨upd, hupd, h⟩ := Result.bind_eq_ok.1 h
    cases h
    exact updateFrom_stable hd.keyed.2 hupd
  · obtain ⟨del, hdel, h⟩ := Result.bind_eq_ok.1 h
    cases h
    exact deleteFrom_stable hdel
  · obtain ⟨_, -, h⟩ := Result.bind_eq_ok.1 h
    obtain ⟨opsDoc, hops, h⟩ := Result.bind_eq_ok.1 h
    obtain ⟨items, hitems, h⟩ := Result.bind_eq_ok.1 h
    obtain ⟨ops, hread, h⟩ := Result.bind_eq_ok.1 h
    cases h
    -- the operations are part of the message, so they keep its limits
    have hdoc := hd.entry (mem_of_find (req_eq_ok hops))
    rw [show ("ops", opsDoc).2 = .array items from asArray_eq_ok hitems] at hdoc
    intro op hop
    obtain ⟨d, hmem, hd⟩ := Result.mem_of_mapM hread hop
    exact opFrom_stable (hdoc.item hmem) hd
  · obtain ⟨_, -, h⟩ := Result.bind_eq_ok.1 h
    obtain ⟨queryDoc, hquery, h⟩ := Result.bind_eq_ok.1 h
    obtain ⟨query, hentries, h⟩ := Result.bind_eq_ok.1 h
    obtain ⟨name, -, h⟩ := Result.bind_eq_ok.1 h
    have hdoc := hd.entry (mem_of_find (req_eq_ok hquery))
    rw [show ("query", queryDoc).2 = .map query from asMap_eq_ok hentries] at hdoc
    split at h
    · obtain ⟨select, hselect, h⟩ := Result.bind_eq_ok.1 h
      cases h
      exact selectFrom_stable hdoc.keyed.2 hselect
    · cases h
  · cases h

/-- The leading fields and the fields of an operation make a map with distinct keys. -/
theorem keyed_map {lead entries : Entries} {names : List String}
    (hkeys : (entries.map Prod.fst).Sublist names) (hnames : (lead.map Prod.fst ++ names).Nodup)
    (hlead : Doc.KeyedEntries lead) (hentries : Doc.KeyedEntries entries) :
    (Doc.map (lead ++ entries)).Keyed := by
  constructor
  · rw [List.map_append]
    exact hnames.sublist (hkeys.append_left _)
  · rw [Doc.keyedEntries_iff] at hlead hentries ⊢
    intro e he
    rcases List.mem_append.1 he with he | he
    · exact hlead e he
    · exact hentries e he

theorem keys_selector (selector : Option Selector) :
    ((selectorEntries selector).map Prod.fst).Sublist ["where", "all"] := by
  match selector with
  | none => exact List.nil_sublist _
  | some .all => exact (List.Sublist.refl ["all"]).cons "where"
  | some (.where_ _) => exact (List.nil_sublist ["all"]).cons_cons "where"

theorem keys_update (upd : Update) :
    ((updateEntries upd).map Prod.fst).Sublist
      ["table", "where", "all", "set", "unconditional"] := by
  simp only [updateEntries, List.map_append]
  exact (((List.Sublist.refl ["table"]).append (keys_selector upd.selector)).append
    (List.Sublist.refl ["set"])).append (keys_field "unconditional" _)

theorem keys_delete (del : Delete) :
    ((deleteEntries del).map Prod.fst).Sublist ["table", "where", "all"] := by
  simp only [deleteEntries, List.map_append]
  exact (List.Sublist.refl ["table"]).append (keys_selector del.selector)

/-- The operation name alone, as an inner operation and an explained query carry it. -/
theorem lead_op (op : String) : Lead [("op", .str op)] := by
  simp [Lead]

theorem lead_envelope (op : String) :
    Lead [("v", .int protocolVersion), ("op", .str op)] := by
  simp [Lead]

/-- A write has no field of the envelope's name, so stripping the version leaves the rest. -/
theorem stripVersion_envelope {op : String} {entries : Entries} {names : List String}
    (hkeys : (entries.map Prod.fst).Sublist names) (hv : "v" ∉ names) :
    stripVersion (envelope op entries) = .map ([("op", .str op)] ++ entries) := by
  have hall : ∀ e ∈ entries, decide (e.1 ≠ "v") = true := by
    intro e he
    rw [decide_eq_true_eq]
    intro heq
    exact hv (heq ▸ hkeys.subset (List.mem_map_of_mem he))
  rw [envelope, stripVersion, List.filter_append, List.filter_eq_self.2 hall]
  simp

/-- The rows of an insert that is part of a short enough document come back. -/
theorem Insert.Stable.rows_of_map {ins : Insert} (h : ins.Stable) {lead : Entries}
    (hlen : (writeDoc (.map (lead ++ insertEntries ins))).length ≤ DecodeLimits.default.maxBytes) :
    ∀ row ∈ ins.rows, Proto.Stable rowFrom rowToDoc row := by
  apply h.rows
  have happ : ∀ lead : Entries, (writeEntries (insertEntries ins)).length
      ≤ (writeEntries (lead ++ insertEntries ins)).length := by
    intro lead
    induction lead with
    | nil => exact Nat.le_refl _
    | cons e lead ih =>
      rw [List.cons_append, writeEntries, List.length_append]
      omega
  have := happ lead
  rw [writeDoc, List.length_append] at hlen
  omega

/-- A stable operation is decoded from its encoding without the version. -/
theorem Request.OpStable.back {op : Request} (h : op.OpStable)
    (hlen : (writeDoc (stripVersion (requestToDoc op))).length ≤ DecodeLimits.default.maxBytes) :
    Proto.Stable opFrom (fun op => stripVersion (requestToDoc op)) op := by
  cases op with
  | insert ins =>
    -- inside a transaction the request is written without its version
    have hstrip : stripVersion (requestToDoc (.insert ins)) = _ :=
      stripVersion_envelope (List.Sublist.refl ["table", "rows"]) (by decide)
    rw [hstrip] at hlen
    have hrows := Insert.Stable.rows_of_map h hlen
    have hback := Insert.Stable.back (lead_op "insert") hrows
    constructor
    · show opFrom (stripVersion (requestToDoc (.insert ins))) = _
      rw [hstrip]
      rw [List.singleton_append] at hback ⊢
      simp [opFrom, asMap, reqStr, req, asStr, hback]
    · show (stripVersion (requestToDoc (.insert ins))).Keyed
      rw [hstrip]
      exact keyed_map (List.Sublist.refl ["table", "rows"]) (by decide) ⟨trivial, trivial⟩
        (Insert.Stable.keyed hrows)
  | update upd =>
    have hstrip : stripVersion (requestToDoc (.update upd)) = _ :=
      stripVersion_envelope (keys_update upd) (by decide)
    have hback := Update.Stable.back (lead_op "update") h
    constructor
    · show opFrom (stripVersion (requestToDoc (.update upd))) = _
      rw [hstrip]
      rw [List.singleton_append] at hback ⊢
      simp [opFrom, asMap, reqStr, req, asStr, hback]
    · show (stripVersion (requestToDoc (.update upd))).Keyed
      rw [hstrip]
      exact keyed_map (keys_update upd) (by decide) ⟨trivial, trivial⟩ (Update.Stable.keyed h)
  | delete del =>
    have hstrip : stripVersion (requestToDoc (.delete del)) = _ :=
      stripVersion_envelope (keys_delete del) (by decide)
    have hback := Delete.Stable.back (lead_op "delete") h
    constructor
    · show opFrom (stripVersion (requestToDoc (.delete del))) = _
      rw [hstrip]
      rw [List.singleton_append] at hback ⊢
      simp [opFrom, asMap, reqStr, req, asStr, hback]
    · show (stripVersion (requestToDoc (.delete del))).Keyed
      rw [hstrip]
      exact keyed_map (keys_delete del) (by decide) ⟨trivial, trivial⟩ (Delete.Stable.keyed h)
  | select => cases h
  | transaction => cases h
  | explain => cases h

theorem opsToDocs_eq (ops : List Request) :
    opsToDocs ops = ops.map (fun op => stripVersion (requestToDoc op)) := by
  induction ops with
  | nil => rfl
  | cons op ops ih => rw [opsToDocs, ih, List.map_cons]

/-- The operations of a short enough transaction come back. -/
theorem ops_stable {ops : List Request} (h : ∀ op ∈ ops, op.OpStable)
    (hlen : (writeDoc (requestToDoc (.transaction ops))).length
      ≤ DecodeLimits.default.maxBytes) :
    ∀ op ∈ ops, Stable opFrom (fun op => stripVersion (requestToDoc op)) op := by
  intro op hop
  apply (h op hop).back
  have hitem := Doc.writeDoc_le_items
    (List.mem_map_of_mem (f := fun op => stripVersion (requestToDoc op)) hop)
  have hops := Doc.writeDoc_le_entries
    (e := ("ops", .array (opsToDocs ops)))
    (show _ ∈ [("v", .int protocolVersion), ("op", .str "transaction"),
      ("ops", .array (opsToDocs ops))] by simp)
  rw [writeDoc, List.length_append, opsToDocs_eq] at hops
  rw [requestToDoc, envelope, writeDoc, List.length_append, opsToDocs_eq] at hlen
  simp only [List.cons_append, List.nil_append] at hlen
  omega

/-- A stable request is decoded from its own encoding. -/
theorem Request.Stable.back {r : Request} (h : r.Stable)
    (hlen : (encodeDoc (requestToDoc r)).length ≤ DecodeLimits.default.maxBytes) :
    Proto.Stable requestFromDoc requestToDoc r := by
  cases r with
  | select select =>
    -- a body sits behind the version and the op, which its own decoder is told to pass over
    have hback := Select.Stable.back (lead_envelope "select") h
    constructor
    · rw [requestToDoc, envelope]
      simp only [List.cons_append, List.nil_append] at hback ⊢
      simp [requestFromDoc, asMap, checkVersion, reqStr, req, asStr, hback]
    · exact keyed_map (keys_select select) (by decide) ⟨trivial, trivial, trivial⟩
        (Select.Stable.keyed h)
  | insert ins =>
    -- the length of the message bounds the number of rows
    have hrows := Insert.Stable.rows_of_map h hlen
    have hback := Insert.Stable.back (lead_envelope "insert") hrows
    constructor
    · rw [requestToDoc, envelope]
      simp only [List.cons_append, List.nil_append] at hback ⊢
      simp [requestFromDoc, asMap, checkVersion, reqStr, req, asStr, hback]
    · exact keyed_map (List.Sublist.refl ["table", "rows"]) (by decide)
        ⟨trivial, trivial, trivial⟩ (Insert.Stable.keyed hrows)
  | update upd =>
    have hback := Update.Stable.back (lead_envelope "update") h
    constructor
    · rw [requestToDoc, envelope]
      simp only [List.cons_append, List.nil_append] at hback ⊢
      simp [requestFromDoc, asMap, checkVersion, reqStr, req, asStr, hback]
    · exact keyed_map (keys_update upd) (by decide) ⟨trivial, trivial, trivial⟩
        (Update.Stable.keyed h)
  | delete del =>
    have hback := Delete.Stable.back (lead_envelope "delete") h
    constructor
    · rw [requestToDoc, envelope]
      simp only [List.cons_append, List.nil_append] at hback ⊢
      simp [requestFromDoc, asMap, checkVersion, reqStr, req, asStr, hback]
    · exact keyed_map (keys_delete del) (by decide) ⟨trivial, trivial, trivial⟩
        (Delete.Stable.keyed h)
  | transaction ops =>
    -- every op of the list decodes back, by the same lemmas behind an op alone
    have hops := ops_stable h hlen
    have hback : (opsToDocs ops).mapM opFrom = .ok ops := by
      rw [opsToDocs_eq]
      exact Proto.Stable.mapM hops
    constructor
    · rw [requestToDoc, envelope]
      simp [requestFromDoc, asMap, checkVersion, reqStr, req, asStr, transactionFrom,
        only_eq_ok.2, asArray, hback]
    · refine keyed_map (List.Sublist.refl ["ops"]) (by decide)
        ⟨trivial, trivial, trivial⟩ ⟨?_, trivial⟩
      show Doc.KeyedItems (opsToDocs ops)
      rw [opsToDocs_eq]
      exact Proto.Stable.keyedItems hops
  | explain select =>
    have hback := Select.Stable.back (lead_op "select") h
    constructor
    · rw [requestToDoc, envelope]
      simp only [List.cons_append, List.nil_append] at hback ⊢
      simp [requestFromDoc, asMap, checkVersion, reqStr, req, asStr, explainFrom,
        only_eq_ok.2, hback]
    · refine keyed_map (List.Sublist.refl ["query"]) (by decide)
        ⟨trivial, trivial, trivial⟩ ⟨?_, trivial⟩
      exact keyed_map (keys_select select) (by decide) ⟨trivial, trivial⟩
        (Select.Stable.keyed h)

/-- A request that was decoded under the default limits comes back from its encoding, when that
stays within the limits. -/
theorem decodeRequest_encodeRequest {bytes : Bytes} {r : Request}
    (h : decodeRequest bytes .default = .ok r) (hfit : (requestToDoc r).Within .default) :
    decodeRequest (encodeRequest r) .default = .ok r := by
  obtain ⟨d, hd, hr⟩ := Result.bind_eq_ok.1 h
  have hstable := requestFromDoc_stable (decodeDoc_eq_ok hd) hr
  have hback := hstable.back hfit.bytes
  rw [decodeRequest, encodeRequest, decodeDoc_encodeDoc hback.keyed hfit (by decide),
    Result.ok_bind, hback.back]

/-- `{"op": "insert", "rows": [{"j": [1.5]}], "table": "t"}` as a client may send it: no
version, its own key order, the float in four bytes. -/
def insertMessage : Bytes :=
  [0x83, 0xA2, 0x6F, 0x70, 0xA6, 0x69, 0x6E, 0x73, 0x65, 0x72, 0x74,
    0xA4, 0x72, 0x6F, 0x77, 0x73, 0x91, 0x81, 0xA1, 0x6A, 0x91, 0xCA, 0x3F, 0xC0, 0x00, 0x00,
    0xA5, 0x74, 0x61, 0x62, 0x6C, 0x65, 0xA1, 0x74]

def sampleInsert : Insert :=
  ⟨"t", [[("j", .json [0x91, 0xCB, 0x3F, 0xF8, 0, 0, 0, 0, 0, 0])]]⟩

/-- The insert a decoded message is. -/
def insertOf : ProtoResult Request → Option Insert
  | .ok (.insert ins) => some ins
  | _ => none

theorem eq_of_insertOf {x : ProtoResult Request} {ins : Insert} (h : insertOf x = some ins) :
    x = .ok (.insert ins) := by
  unfold insertOf at h
  split at h
  · cases h
    rfl
  · cases h

theorem decodeRequest_encodeRequest_insert :
    decodeRequest insertMessage .default = .ok (.insert sampleInsert) ∧
    encodeRequest (.insert sampleInsert) ≠ insertMessage ∧
    decodeRequest (encodeRequest (.insert sampleInsert)) .default = .ok (.insert sampleInsert) := by
  have hdecode : decodeRequest insertMessage .default = .ok (.insert sampleInsert) :=
    eq_of_insertOf (by decide +kernel)
  have hfit : (requestToDoc (.insert sampleInsert)).Within .default :=
    ⟨by decide +kernel, by decide +kernel, by decide +kernel⟩
  exact ⟨hdecode, by decide +kernel, decodeRequest_encodeRequest hdecode hfit⟩

end Edb.Proto
