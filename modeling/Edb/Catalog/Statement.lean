import Edb.Catalog.Closure
import Edb.Catalog.References

/-!
# Statements

What a row job targets and plans in the state it starts from, before it writes anything, and
what it did when it committed: a committed row job is an insert, a `Change` of the rows it
targets or a `Removal` of its seeds (`apply_statement`). Conditions on jobs speak of targets and
closures.
-/

namespace Edb.Catalog

open Edb.Types Edb.Lib

/-! ## Targets -/

/-- The rows an update changes, with their new forms, by the table's image. -/
def JobOp.Targets (env : Env) (s : CatState) (table : String) (image : TableImage)
    (deltas : List RowDelta) : JobOp → Prop
  | .update t pk sets => t = table ∧ ∃ pkKey bytes oldRow d,
      encodePk table image.def_ pk = .ok pkKey ∧ OrdMap.find pkKey image.data = some bytes ∧
      decodePadded image.def_ bytes = .ok oldRow ∧
      changeRow (probeArriving table image) (env.now 0 0) s table image.def_ pkKey oldRow sets =
        .ok d ∧ deltas = [d]
  | .updateWhere t policy => t = table ∧
      matchRows env s table image.def_ policy 0 [] image.data = .ok deltas
  | _ => False

/-- The rows a delete starts from, by the table's image. -/
def JobOp.Seeds (table : String) (image : TableImage)
    (seeds : List (String × Bytes × List Value)) : JobOp → Prop
  | .delete t pk => t = table ∧ ∃ pkKey bytes row,
      encodePk table image.def_ pk = .ok pkKey ∧ OrdMap.find pkKey image.data = some bytes ∧
      decodePadded image.def_ bytes = .ok row ∧ seeds = [(table, pkKey, row)]
  | .deleteWhere t filter => t = table ∧ seedRows table image.def_ filter image.data = .ok seeds
  | _ => False

/-- The closure a job plans in a state. -/
def JobOp.Plans (op : JobOp) (env : Env) (fuel : Nat) (s : CatState) (plan : Cascade) : Prop :=
  ∃ table image, OrdMap.find table s.tables = some image ∧
    ((∃ deltas, op.Targets env s table image deltas ∧
        planReferential fuel s table image.def_ deltas = .ok (some plan)) ∨
      ∃ seeds, op.Seeds table image seeds ∧ planCascade s s.allTables fuel seeds [] = .ok plan)

/-! ## Committed row jobs -/

/-- What a committed row job did. -/
inductive Statement (env : Env) (fuel : Nat) (s : CatState) : JobOp → CatState → Prop
  | insert {table : String} {input : List (List (String × Value))} {rows : List (List Value)}
      {s' : CatState} : Catalog.insert env s table input = .ok (rows, s') →
      Statement env fuel s (.insert table input) s'
  | change {op : JobOp} {table : String} {image : TableImage} {deltas : List RowDelta}
      {referential : Option Cascade} {s' : CatState} : op.Targets env s table image deltas →
      Change fuel s table image deltas referential s' → Statement env fuel s op s'
  | removal {op : JobOp} {table : String} {image : TableImage}
      {seeds : List (String × Bytes × List Value)} {plan : Cascade} {s' : CatState} :
      OrdMap.find table s.tables = some image → op.Seeds table image seeds →
      Removal fuel s table seeds plan s' → Statement env fuel s op s'
  | idle {op : JobOp} : Statement env fuel s op s

section

variable {env : Env} {fuel : Nat} {s s' : CatState} {table : String}

/-- A committed update changes the row it targets. -/
theorem update_change {pk : List Value} {sets : List (String × Value)} {row : List Value}
    (h : update env fuel s table pk sets = .ok (row, s')) :
    ∃ image deltas referential, (JobOp.update table pk sets).Targets env s table image deltas ∧
      Change fuel s table image deltas referential s' := by
  obtain ⟨image, pkKey, bytes, oldRow, d, referential, ⟨hpk, hbytes, hold, hd⟩, h⟩ :=
    update_eq_ok h
  exact ⟨image, [d], referential, ⟨rfl, pkKey, bytes, oldRow, d, hpk, hbytes, hold, hd, rfl⟩, h⟩

theorem update_statement {pk : List Value} {sets : List (String × Value)} {row : List Value}
    (h : update env fuel s table pk sets = .ok (row, s')) :
    Statement env fuel s (.update table pk sets) s' := by
  obtain ⟨image, deltas, referential, htargets, h⟩ := update_change h
  exact .change htargets h

theorem updateWhere_change {policy : RowUpdater} {count : Nat}
    (h : updateWhere env fuel s table policy = .ok (count, s')) :
    ∃ image deltas referential,
      (JobOp.updateWhere table policy).Targets env s table image deltas ∧
        Change fuel s table image deltas referential s' := by
  obtain ⟨image, deltas, referential, hmatch, h⟩ := updateWhere_eq_ok h
  exact ⟨image, deltas, referential, ⟨rfl, hmatch⟩, h⟩

theorem updateWhere_statement {policy : RowUpdater} {count : Nat}
    (h : updateWhere env fuel s table policy = .ok (count, s')) :
    Statement env fuel s (.updateWhere table policy) s' := by
  obtain ⟨image, deltas, referential, htargets, h⟩ := updateWhere_change h
  exact .change htargets h

/-- A delete that returns is a statement. -/
theorem delete_statement {pk : List Value} {done : Bool}
    (h : delete fuel s table pk = .ok (done, s')) :
    Statement env fuel s (.delete table pk) s' := by
  obtain ⟨image, himage, h⟩ := Result.bind_eq_ok.1 h
  obtain ⟨pkKey, hpk, h⟩ := Result.bind_eq_ok.1 h
  rw [CatState.load_eq_ok] at himage
  split at h
  · cases h
    exact .idle
  · next bytes hbytes =>
    obtain ⟨row, hrow, h⟩ := Result.bind_eq_ok.1 h
    obtain ⟨s₁, hs₁, h⟩ := Result.bind_eq_ok.1 h
    cases h
    rw [rej_eq_ok] at hpk hrow
    have hrows : ∀ seed ∈ [(table, pkKey, row)], ∃ bytes, seed.1 = table ∧
        (seed.2.1, bytes) ∈ image.data ∧ decodePadded image.def_ bytes = .ok seed.2.2 := by
      intro seed hseed
      rw [List.mem_singleton.1 hseed]
      exact ⟨bytes, rfl, OrdMap.mem_of_find hbytes, hrow⟩
    obtain ⟨plan, hremoval⟩ := deleteSeeds_eq_ok hs₁ ⟨image, himage, hrows⟩
    exact .removal himage ⟨rfl, pkKey, bytes, row, hpk, hbytes, hrow, rfl⟩ hremoval

/-- A `delete_where` that returns is a statement. -/
theorem deleteWhere_statement {filter : RowFilter} {count : Nat}
    (h : deleteWhere fuel s table filter = .ok (count, s')) :
    Statement env fuel s (.deleteWhere table filter) s' := by
  obtain ⟨image, himage, h⟩ := Result.bind_eq_ok.1 h
  obtain ⟨seeds, hseeds, h⟩ := Result.bind_eq_ok.1 h
  rw [CatState.load_eq_ok] at himage
  split at h
  · cases h
    exact .idle
  · obtain ⟨s₁, hs₁, h⟩ := Result.bind_eq_ok.1 h
    cases h
    obtain ⟨plan, hremoval⟩ := deleteSeeds_eq_ok hs₁ ⟨image, himage, seedRows_eq_ok hseeds⟩
    exact .removal himage ⟨rfl, hseeds⟩ hremoval

/-- A committed row job other than a batch is one of the statements. -/
theorem apply_statement {envs : Nat → Env} {op : JobOp} {out : JobOut}
    (hop : op.isDefinition = false) (hb : ∀ specs, op ≠ .batch specs)
    (h : apply envs fuel s op = .ok (out, s')) : Statement (envs 0) fuel s op s' := by
  cases op with
  | insert table rows =>
    obtain ⟨⟨rows', s₁⟩, h, hout⟩ := Result.bind_eq_ok.1 h
    cases hout
    exact .insert h
  | update table pk sets =>
    obtain ⟨⟨row, s₁⟩, h, hout⟩ := Result.bind_eq_ok.1 h
    cases hout
    exact update_statement h
  | delete table pk =>
    obtain ⟨⟨done, s₁⟩, h, hout⟩ := Result.bind_eq_ok.1 h
    cases hout
    exact delete_statement h
  | updateWhere table policy =>
    obtain ⟨⟨count, s₁⟩, h, hout⟩ := Result.bind_eq_ok.1 h
    cases hout
    exact updateWhere_statement h
  | deleteWhere table filter =>
    obtain ⟨⟨count, s₁⟩, h, hout⟩ := Result.bind_eq_ok.1 h
    cases hout
    exact deleteWhere_statement h
  | batch specs => exact absurd rfl (hb specs)
  | _ => cases hop

/-- The closure a change applied is the one its job plans. -/
theorem Change.plans {image : TableImage} {deltas : List RowDelta} {plan : Cascade} {op : JobOp}
    (h : Change fuel s table image deltas (some plan) s')
    (hop : op.Targets env s table image deltas) : op.Plans env fuel s plan :=
  ⟨table, image, h.found, .inl ⟨deltas, hop, h.planned⟩⟩

theorem Removal.plans {image : TableImage} {seeds : List (String × Bytes × List Value)}
    {plan : Cascade} {op : JobOp} (himage : OrdMap.find table s.tables = some image)
    (h : Removal fuel s table seeds plan s') (hop : op.Seeds table image seeds) :
    op.Plans env fuel s plan :=
  ⟨table, image, himage, .inr ⟨seeds, hop, h.planned⟩⟩

/-- The rows an update changes are computed once. -/
theorem JobOp.Targets.unique {op : JobOp} {image : TableImage} {deltas deltas' : List RowDelta}
    (h : op.Targets env s table image deltas) (h' : op.Targets env s table image deltas') :
    deltas = deltas' := by
  cases op with
  | update t pk sets =>
    obtain ⟨-, pkKey, bytes, oldRow, d, hpk, hbytes, hold, hd, rfl⟩ := h
    obtain ⟨-, pkKey', bytes', oldRow', d', hpk', hbytes', hold', hd', rfl⟩ := h'
    cases hpk.symm.trans hpk'
    cases hbytes.symm.trans hbytes'
    cases hold.symm.trans hold'
    cases hd.symm.trans hd'
    rfl
  | updateWhere t policy =>
    cases h.2.symm.trans h'.2
    rfl
  | _ => exact h.elim

theorem JobOp.Targets.sameTable {op : JobOp} {table' : String} {image image' : TableImage}
    {deltas deltas' : List RowDelta} (h : op.Targets env s table image deltas)
    (h' : op.Targets env s table' image' deltas') : table = table' := by
  cases op with
  | update t pk sets => exact h.1.symm.trans h'.1
  | updateWhere t policy => exact h.1.symm.trans h'.1
  | _ => exact h.elim

theorem JobOp.Targets.not_seeds {op : JobOp} {table' : String} {image image' : TableImage}
    {deltas : List RowDelta} {seeds : List (String × Bytes × List Value)}
    (h : op.Targets env s table image deltas) : ¬ op.Seeds table' image' seeds := by
  cases op with
  | update t pk sets => exact fun h => h
  | updateWhere t policy => exact fun h => h
  | _ => exact h.elim

/-- An update plans the closure of its changed rows. -/
theorem JobOp.Targets.plans_iff {op : JobOp} {image : TableImage} {deltas : List RowDelta}
    {plan : Cascade} (himage : OrdMap.find table s.tables = some image)
    (h : op.Targets env s table image deltas) :
    op.Plans env fuel s plan ↔
      planReferential fuel s table image.def_ deltas = .ok (some plan) := by
  constructor
  · rintro ⟨table', image', himage', ⟨deltas', htargets, hplan⟩ | ⟨seeds, hseeds, -⟩⟩
    · cases h.sameTable htargets
      cases himage.symm.trans himage'
      cases h.unique htargets
      exact hplan
    · exact absurd hseeds h.not_seeds
  · intro hplan
    exact ⟨table, image, himage, .inl ⟨deltas, h, hplan⟩⟩

/-- A committed update is a change of the rows it targets. -/
theorem JobOp.Targets.change {op : JobOp} {image : TableImage} {deltas : List RowDelta}
    {envs : Nat → Env} {out : JobOut} (himage : OrdMap.find table s.tables = some image)
    (h : op.Targets (envs 0) s table image deltas)
    (happly : apply envs fuel s op = .ok (out, s')) :
    ∃ referential, Change fuel s table image deltas referential s' := by
  cases op with
  | update t pk sets =>
    obtain ⟨⟨row, s₁⟩, hupdate, hout⟩ := Result.bind_eq_ok.1 happly
    cases hout
    cases h.1
    obtain ⟨image', deltas', referential, htargets, hchange⟩ := update_change hupdate
    cases himage.symm.trans hchange.found
    cases htargets.unique h
    exact ⟨referential, hchange⟩
  | updateWhere t policy =>
    obtain ⟨⟨count, s₁⟩, hupdate, hout⟩ := Result.bind_eq_ok.1 happly
    cases hout
    cases h.1
    obtain ⟨image', deltas', referential, htargets, hchange⟩ := updateWhere_change hupdate
    cases himage.symm.trans hchange.found
    cases htargets.unique h
    exact ⟨referential, hchange⟩
  | _ => exact h.elim

end

/-! ## Committed definition jobs -/

/-- A table keeps its rows, its key, checks and foreign keys, and its columns up to one that is
added behind the others. -/
structure Altered (op : JobOp) (t : String) (a b : TableImage) : Prop where
  data : b.data = a.data
  name : b.def_.name = a.def_.name
  pk : b.def_.pk = a.def_.pk
  checks : b.def_.checks = a.def_.checks
  foreignKeys : b.def_.foreignKeys = a.def_.foreignKeys
  columns : b.def_.columns = a.def_.columns ∨ ∃ column, op = .addColumn t column ∧
    b.def_.columns = a.def_.columns ++ [column] ∧ a.def_.colIndex column.name = none ∧
    backfillable column = true

/-- What a committed definition job did. -/
inductive Definition (s : CatState) : JobOp → CatState → Prop
  | create {def_ d : TableDef} {s' : CatState} : d = def_.materializeImplicitIndexes →
      d.validate = .ok () → validateFks s d = .ok () → OrdMap.find d.name s.tables = none →
      s'.tables = OrdMap.insert d.name ⟨d, [], emptyIndexes d.indexes⟩ s.tables →
      s'.seqs = (if d.columns.any (fun c => c.autoIncrement) then OrdMap.insert d.name 1 s.seqs
        else s.seqs) → Definition s (.createTable def_) s'
  | drop {t : String} : Definition s (.dropTable t) ⟨OrdMap.erase t s.tables, OrdMap.erase t s.seqs⟩
  | alter {op : JobOp} {t : String} {a b : TableImage} : OrdMap.find t s.tables = some a →
      Altered op t a b → Definition s op (s.store t b)

/-- Creating a table is a definition. -/
theorem createTable_definition {s s' : CatState} {def_ : TableDef}
    (h : createTable s def_ = .ok s') : Definition s (.createTable def_) s' := by
  obtain ⟨hvalid, hfks, hfresh, htables⟩ := createTable_eq_ok h
  refine .create rfl hvalid hfks hfresh htables ?_
  obtain ⟨_, -, h⟩ := Result.bind_eq_ok.1 h
  obtain ⟨_, -, h⟩ := Result.bind_eq_ok.1 h
  obtain ⟨_, -, h⟩ := Result.bind_eq_ok.1 h
  obtain ⟨_, -, h⟩ := Result.bind_eq_ok.1 h
  obtain ⟨_, -, h⟩ := Result.bind_eq_ok.1 h
  obtain ⟨_, -, h⟩ := Result.bind_eq_ok.1 h
  split at h
  · next hauto =>
    obtain ⟨_, -, h⟩ := Result.bind_eq_ok.1 h
    cases h
    rw [if_pos hauto]
    rfl
  · next hauto =>
    cases h
    rw [if_neg hauto]
    rfl

/-- A committed definition job is one of the three. -/
theorem apply_definition {envs : Nat → Env} {fuel : Nat} {s s' : CatState} {op : JobOp}
    {out : JobOut} (hop : op.isDefinition = true) (h : apply envs fuel s op = .ok (out, s')) :
    Definition s op s' := by
  cases op with
  | createTable def_ =>
    obtain ⟨s₁, h, hout⟩ := Result.bind_eq_ok.1 h
    cases hout
    exact createTable_definition h
  | dropTable table =>
    obtain ⟨s₁, h, hout⟩ := Result.bind_eq_ok.1 h
    cases hout
    obtain ⟨image, -, h⟩ := Result.bind_eq_ok.1 h
    obtain ⟨_, -, h⟩ := Result.bind_eq_ok.1 h
    cases h
    exact .drop
  | addColumn table column =>
    obtain ⟨s₁, h, hout⟩ := Result.bind_eq_ok.1 h
    cases hout
    obtain ⟨image, backfills, image', himage, hfresh, hback, -, -, hfold, rfl⟩ :=
      addColumn_eq_ok h
    obtain ⟨hdef, hdata, -⟩ := applyBackfills_eq_ok hfold
    refine .alter himage ⟨hdata, ?_, ?_, ?_, ?_, .inr ⟨column, rfl, ?_, hfresh, hback⟩⟩
      <;> rw [hdef] <;> rfl
  | createIndex table index =>
    obtain ⟨s₁, h, hout⟩ := Result.bind_eq_ok.1 h
    cases hout
    obtain ⟨image, entries, tree, himage, -, -, -, -, rfl⟩ := createIndex_eq_ok h
    exact .alter himage ⟨rfl, rfl, rfl, rfl, rfl, .inl rfl⟩
  | dropIndex table index =>
    obtain ⟨s₁, h, hout⟩ := Result.bind_eq_ok.1 h
    cases hout
    obtain ⟨image, pos, himage, -, -, rfl⟩ := dropIndex_eq_ok h
    exact .alter himage ⟨rfl, rfl, rfl, rfl, rfl, .inl rfl⟩
  | _ => cases hop

end Edb.Catalog
