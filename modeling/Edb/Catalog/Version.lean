import Edb.Catalog.RowValid
import Edb.Catalog.Stored
import Mathlib

/-!
# Row versions

A rowversion column is stepped by every update of its row, and by nothing else: a foreign-key
action rewrites referencing columns only. In runs whose closures rewrite no versioned row, a row
that changed within its lifetime has a larger version than before (`rowversion_guards`).
-/

namespace Edb.Catalog

open Edb.Types Edb.Lib

/-! ## The counter -/

theorem nextI64_toInt {v : Int64} (h : v ≠ Int64.maxValue) : (nextI64 v).toInt = v.toInt + 1 := by
  have hmax : v.toInt ≠ 2 ^ 63 - 1 := by
    intro hv
    exact h (Int64.toInt_inj.1 hv)
  have hlt := v.toInt_lt
  have hle := v.le_toInt
  rw [nextI64, if_neg h, Int64.toInt_add, show (1 : Int64).toInt = 1 from rfl,
    Int.bmod_eq_of_le (by omega) (by omega)]

/-- The number a version stands for; NULL is below every number. -/
def versionNumber : Value → WithBot Int
  | .i64 n => (n.toInt : Int)
  | _ => ⊥

theorem versionNumber_next {v : Value} (h : v ≠ .i64 Int64.maxValue) :
    versionNumber v < versionNumber (nextVersion (some v)) := by
  cases v with
  | i64 n =>
    have hn : n ≠ Int64.maxValue := fun hn => h (congrArg Value.i64 hn)
    show ((n.toInt : Int) : WithBot Int) < ((nextI64 n).toInt : Int)
    rw [nextI64_toInt hn]
    exact WithBot.coe_lt_coe.2 (by omega)
  | _ => exact WithBot.bot_lt_coe _

/-! ## Updates step the version -/

section Step

variable {d : TableDef} {row row' : List Value}

/-- An absolute set list leaves the columns the engine manages alone. -/
theorem applySets_managed {table : String} {sets : List (String × Value)}
    (h : applySets table d row sets = .ok row') {ci : Nat} {col : ColumnDef}
    (hcol : d.columns[ci]? = some col) (hver : col.rowversion = true) : row'[ci]? = row[ci]? := by
  induction sets generalizing row with
  | nil =>
    cases h
    rfl
  | cons e sets ih =>
    obtain ⟨name, value⟩ := e
    rw [applySets] at h
    cases hcj : d.colIndex name with
    | none =>
      rw [hcj] at h
      cases h
    | some cj =>
      rw [hcj] at h
      change (if d.isPk cj = true then _ else _) = _ at h
      obtain ⟨-, h⟩ := Result.guard_eq_ok.1 h
      obtain ⟨hmanaged, h⟩ := Result.guard_eq_ok.1 h
      obtain ⟨_, -, h⟩ := Result.bind_eq_ok.1 h
      rw [ih h, List.getElem?_set_ne]
      intro heq
      subst heq
      rw [hcol, Option.any_some, hver, Bool.true_or] at hmanaged
      exact hmanaged rfl

/-- An update steps the version of its row. -/
theorem transformRow_version {now : Int64} {table : String} {sets : List (String × Value)}
    (hd : d.WellFormed) (h : transformRow now table d row sets = .ok row')
    (hlen : row.length = d.columns.length) {ci : Nat} {col : ColumnDef}
    (hcol : d.columns[ci]? = some col) (hver : col.rowversion = true) :
    row'.getD ci .null = nextVersion (some (row.getD ci .null)) := by
  obtain ⟨mid, hmid, h⟩ := Result.bind_eq_ok.1 h
  cases h
  have hlt : ci < row.length := by
    rw [hlen]
    exact (List.getElem?_eq_some_iff.1 hcol).1
  have hwf := hd.columns col (List.mem_of_getElem? hcol)
  have hnow : col.onUpdateNow = false := by
    cases hnow : col.onUpdateNow with
    | false => rfl
    | true => cases (hwf.rowversion hver).symm.trans (hwf.onUpdateNow hnow)
  rw [List.getD_eq_getElem?_getD, stepManaged, List.getElem?_zipWith, hcol,
    applySets_managed hmid hcol hver, List.getD_eq_getElem?_getD, List.getElem?_eq_getElem hlt]
  simp [stepCell, hver, hnow]

end Step

/-- Where a table's rowversion column is. -/
def TableDef.versionColumn (d : TableDef) : Option Nat := d.columns.findIdx? (fun c => c.rowversion)

/-- The version of a stored row. -/
def TableDef.versionOf (d : TableDef) (bytes : Bytes) : WithBot Int :=
  match decodePadded d bytes, d.versionColumn with
  | .ok row, some ci => versionNumber (row.getD ci .null)
  | _, _ => ⊥

theorem versionColumn_eq_some {d : TableDef} {ci : Nat} (h : d.versionColumn = some ci) :
    ∃ col, d.columns[ci]? = some col ∧ col.rowversion = true := by
  obtain ⟨hlt, hver, -⟩ := List.findIdx?_eq_some_iff_getElem.1 h
  exact ⟨_, List.getElem?_eq_getElem hlt, hver⟩

/-- Adding columns leaves the version of a row as it is. -/
theorem versionOf_altered {op : JobOp} {t : String} {a b : TableImage} (h : Altered op t a b)
    (hver : a.def_.versionColumn.isSome = true) {bytes : Bytes} {row : List Value}
    (hrow : decodePadded a.def_ bytes = .ok row) :
    b.def_.versionColumn = a.def_.versionColumn ∧
      b.def_.versionOf bytes = a.def_.versionOf bytes := by
  obtain ⟨ci, hci⟩ := Option.isSome_iff_exists.1 hver
  obtain ⟨col, hcol, -⟩ := versionColumn_eq_some hci
  have hlt : ci < a.def_.columns.length := (List.getElem?_eq_some_iff.1 hcol).1
  rcases h.columns with hcols | ⟨column, -, hcols, -, -⟩
  · have hvc : b.def_.versionColumn = a.def_.versionColumn := by
      rw [TableDef.versionColumn, hcols]
      rfl
    refine ⟨hvc, ?_⟩
    have hdec : decodePadded b.def_ bytes = decodePadded a.def_ bytes := by
      rw [decodePadded, hcols]
      rfl
    rw [TableDef.versionOf, TableDef.versionOf, hvc, hdec]
  · have hvc : b.def_.versionColumn = a.def_.versionColumn := by
      rw [TableDef.versionColumn, hcols, List.findIdx?_append]
      rw [TableDef.versionColumn] at hci
      rw [hci, TableDef.versionColumn, hci]
      rfl
    refine ⟨hvc, ?_⟩
    have hlen := decodePadded_length hrow
    rw [TableDef.versionOf, TableDef.versionOf, hvc, decodePadded_widen hcols hrow, hrow, hci]
    show versionNumber _ = versionNumber _
    rw [List.getD_eq_getElem?_getD, List.getD_eq_getElem?_getD,
      List.getElem?_append_left (by omega)]

/-! ## Runs -/

/-- No closure rewrites a versioned row, and no version is at its limit when its row is
updated. -/
def StepsVersions : JobCond := fun env fuel s op =>
  (∀ plan, op.Plans env fuel s plan → ∀ r ∈ plan.rewrites, ∀ image,
    OrdMap.find (ofLex r.1).1 s.tables = some image → image.def_.versionColumn = none) ∧
  ∀ table image deltas, OrdMap.find table s.tables = some image →
    op.Targets env s table image deltas → ∀ d ∈ deltas, ∀ ci,
      image.def_.versionColumn = some ci → d.oldRow.getD ci .null ≠ .i64 Int64.maxValue

/-- The job does not end the lifetime of a row. -/
def Lives (table : String) (key : Bytes) : JobCond := fun env fuel s op =>
  ∀ out s', apply (fun _ => env) fuel s op = .ok (out, s') → (s'.rowAt table key).isSome = true

/-- Both conditions. -/
def JobCond.and (C D : JobCond) : JobCond := fun env fuel s op =>
  C env fuel s op ∧ D env fuel s op

/-- What is known of a row later in its lifetime: it is as it was, or its version is larger. -/
def Aged (table : String) (key bytes₀ : Bytes) (v₀ : WithBot Int) (s : CatState) : Prop :=
  ∃ image bytes, OrdMap.find table s.tables = some image ∧ s.rowAt table key = some bytes ∧
    image.def_.versionColumn.isSome = true ∧ v₀ ≤ image.def_.versionOf bytes ∧
    (bytes = bytes₀ ∨ v₀ < image.def_.versionOf bytes)

section Aged

variable {table : String} {key bytes₀ : Bytes} {v₀ : WithBot Int} {s s' : CatState}

/-- A changed row has a larger version. -/
theorem ChangedRow.version {image : TableImage} {d : RowDelta} (hs : image.def_.WellFormed)
    (ho : OrdMap.Sorted image.data) (h : ChangedRow s table image d) {bytes : Bytes}
    (hbytes : OrdMap.find d.pkKey image.data = some bytes) {ci : Nat}
    (hci : image.def_.versionColumn = some ci)
    (hmax : d.oldRow.getD ci .null ≠ .i64 Int64.maxValue) :
    image.def_.versionOf bytes < image.def_.versionOf d.bytes := by
  have hnew := h.reads
  obtain ⟨check, now, sets, bytes', hmem, hold, h⟩ := h
  obtain ⟨-, -, hmade⟩ := changeRow_eq_ok h
  obtain ⟨col, hcol, hver⟩ := versionColumn_eq_some hci
  rw [(OrdMap.find_eq_some_iff ho).2 hmem] at hbytes
  cases hbytes
  rw [TableDef.versionOf, TableDef.versionOf, hold, hnew, hci]
  show versionNumber _ < versionNumber _
  rw [transformRow_version hs hmade.transformed (decodePadded_length hold) hcol hver]
  exact versionNumber_next hmax

/-- A row that is left alone, with its table's definition, has aged as before. -/
theorem Aged.same (h : Aged table key bytes₀ v₀ s) (hs : s.SameDefs s')
    (hrow : ∀ bytes, s.rowAt table key = some bytes → s'.rowAt table key = some bytes) :
    Aged table key bytes₀ v₀ s' := by
  obtain ⟨image, bytes, himage, hbytes, hver, hle, hcase⟩ := h
  have hdef := hs table
  rw [himage, Option.map_some] at hdef
  obtain ⟨image', himage', hdef⟩ := Option.map_eq_some_iff.1 hdef
  refine ⟨image', bytes, himage', hrow bytes hbytes, ?_⟩
  rw [hdef]
  exact ⟨hver, hle, hcase⟩

/-- A row that an update changes, and its closure leaves alone, is stored with a larger
version. -/
theorem Change.outruns {fuel : Nat} {image : TableImage} {deltas : List RowDelta}
    {referential : Option Cascade} (hs : s.Sound)
    (h : Change fuel s table image deltas referential s') {d : RowDelta} (hd : d ∈ deltas)
    (hnone : OrdMap.find (toLex (table, d.pkKey)) (rewritesOf referential) = none) {bytes : Bytes}
    (hbytes : OrdMap.find d.pkKey image.data = some bytes) {ci : Nat}
    (hci : image.def_.versionColumn = some ci)
    (hmax : d.oldRow.getD ci .null ≠ .i64 Int64.maxValue) :
    ∃ image', OrdMap.find table s'.tables = some image' ∧ image'.def_ = image.def_ ∧
      s'.rowAt table d.pkKey = some d.bytes ∧
      image.def_.versionOf bytes < image.def_.versionOf d.bytes := by
  have hleaves := h.leaves hs.wellFormed hs.inOrder
  have hlt := (h.rows d hd).version (hs.wellFormed.tables _ _ h.found).def_
    (hs.inOrder _ _ h.found) hbytes hci hmax
  have hdef := hleaves.defs table
  rw [h.found, Option.map_some] at hdef
  obtain ⟨image', himage', hdef⟩ := Option.map_eq_some_iff.1 hdef
  exact ⟨image', himage', hdef, hleaves.target d hd hnone, hlt⟩

/-- A row job that does not end the row's lifetime. -/
theorem Statement.aged {env : Env} {fuel : Nat} {op : JobOp} (hs : s.Sound)
    (hC : StepsVersions env fuel s op) (hlive : (s'.rowAt table key).isSome = true)
    (h : Statement env fuel s op s') (ha : Aged table key bytes₀ v₀ s) :
    Aged table key bytes₀ v₀ s' := by
  obtain ⟨image, bytes, himage, hbytes, hver, hle, hcase⟩ := id ha
  obtain ⟨ci, hci⟩ := Option.isSome_iff_exists.1 hver
  -- the row's table is versioned, so no closure rewrites the row
  have hfree : ∀ plan, op.Plans env fuel s plan →
      OrdMap.find (toLex (table, key)) plan.rewrites = none := by
    intro plan hplan
    cases hw : OrdMap.find (toLex (table, key)) plan.rewrites with
    | none => rfl
    | some w =>
      have hnone := hC.1 plan hplan _ (OrdMap.mem_of_find hw) image himage
      rw [hnone] at hci
      cases hci
  cases h with
  | insert h =>
    obtain ⟨hsame, hrow⟩ := insert_rowAt h
    exact ha.same hsame (hrow table key)
  | @change _ t image' deltas referential _ htargets h =>
    have hnone : OrdMap.find (toLex (table, key)) (rewritesOf referential) = none := by
      cases referential with
      | none => rfl
      | some plan => exact hfree plan (h.plans htargets)
    by_cases hin : t = table ∧ ∃ d ∈ deltas, d.pkKey = key
    · obtain ⟨rfl, d, hd, rfl⟩ := hin
      cases himage.symm.trans h.found
      rw [CatState.rowAt_of_find _ himage] at hbytes
      obtain ⟨image', himage', hdef, hrow, hlt⟩ := h.outruns hs hd hnone hbytes hci
        (hC.2 _ _ _ himage htargets d hd ci hci)
      refine ⟨image', d.bytes, himage', hrow, ?_⟩
      rw [hdef]
      exact ⟨hver, (hle.trans_lt hlt).le, .inr (hle.trans_lt hlt)⟩
    · have hleaves := h.leaves hs.wellFormed hs.inOrder
      have hrow := hleaves.other table key hnone (fun ht d hd hk => hin ⟨ht.symm, d, hd, hk⟩)
      exact ha.same hleaves.defs (fun bytes hb => hrow.trans hb)
  | removal hfound hseeds h =>
    obtain ⟨hsame, hrow⟩ := h.rowAt hs.wellFormed
    have hrow := hrow table key (hfree _ (h.plans hfound hseeds))
    rw [hrow] at hlive
    split at hrow
    · next hdel =>
      rw [if_pos hdel] at hlive
      cases hlive
    · exact ha.same hsame (fun bytes hb => hrow.trans hb)
  | idle => exact ha

/-- A definition job that does not end the row's lifetime. -/
theorem Definition.aged {op : JobOp} (hs : s.Sound)
    (hlive : (s'.rowAt table key).isSome = true) (h : Definition s op s')
    (ha : Aged table key bytes₀ v₀ s) : Aged table key bytes₀ v₀ s' := by
  obtain ⟨image, bytes, himage, hbytes, hver, hle, hcase⟩ := ha
  cases h with
  | create _ _ _ hfresh htables _ =>
    have himage' : OrdMap.find table s'.tables = some image := by
      rw [htables, OrdMap.find_insert, if_neg]
      · exact himage
      · intro heq
        rw [heq, himage] at hfresh
        cases hfresh
    refine ⟨image, bytes, himage', ?_, hver, hle, hcase⟩
    rw [CatState.rowAt_of_find _ himage', ← CatState.rowAt_of_find _ himage]
    exact hbytes
  | @drop t =>
    have hfind : OrdMap.find table (OrdMap.erase t s.tables) =
        if t = table then none else OrdMap.find table s.tables := OrdMap.find_erase _ _ _
    by_cases ht : t = table
    · rw [if_pos ht] at hfind
      rw [CatState.rowAt, hfind] at hlive
      cases hlive
    · rw [if_neg ht, himage] at hfind
      refine ⟨image, bytes, hfind, ?_, hver, hle, hcase⟩
      rw [CatState.rowAt_of_find _ hfind, ← CatState.rowAt_of_find _ himage]
      exact hbytes
  | @alter _ t a b hfound hab =>
    by_cases ht : table = t
    · subst ht
      -- the table itself was altered: its rows keep their bytes, and the version reads as before
      cases himage.symm.trans hfound
      rw [CatState.rowAt_of_find _ himage] at hbytes
      obtain ⟨row, hrow⟩ := hs.readable _ _ himage _ (OrdMap.mem_of_find hbytes)
      obtain ⟨hcol, hversion⟩ := versionOf_altered hab hver hrow
      refine ⟨b, bytes, ?_, ?_, ?_, ?_, ?_⟩
      · rw [CatState.find_store, if_pos rfl]
      · rw [CatState.rowAt_store, if_pos rfl, hab.data]
        exact hbytes
      · rw [hcol]
        exact hver
      · rw [hversion]
        exact hle
      · rw [hversion]
        exact hcase
    · refine ⟨image, bytes, ?_, ?_, hver, hle, hcase⟩
      · rw [CatState.find_store, if_neg ht]
        exact himage
      · rw [CatState.rowAt_store, if_neg ht]
        exact hbytes

/-- Every job that steps versions leaves a living row as it was, or at a later version. -/
theorem aged_kept : Keeps (StepsVersions.and (Lives table key))
    (fun s => s.Sound ∧ Aged table key bytes₀ v₀ s) := by
  intro envs fuel s op out s' hb hC h hs
  have hlive : (s'.rowAt table key).isSome = true := by
    have hone : apply (fun _ => envs 0) fuel s op = .ok (out, s') := by
      rw [← h]
      cases op with
      | batch specs => exact absurd rfl (hb specs)
      | _ => rfl
    exact hC.2 out s' hone
  refine ⟨sound_kept (C := fun _ _ _ _ => True) envs fuel s op out s' hb trivial h hs.1, ?_⟩
  cases hop : op.isDefinition with
  | false => exact (apply_statement hop hb h).aged hs.1 hC.1 hlive hs.2
  | true => exact (apply_definition hop h).aged hs.1 hlive hs.2

end Aged

/-- A stored row of a versioned table, with its version. -/
def CatState.versioned (s : CatState) (table : String) (key : Bytes) :
    Option (Bytes × WithBot Int) :=
  (OrdMap.find table s.tables).bind (fun image =>
    if image.def_.versionColumn.isSome then
      (OrdMap.find key image.data).map (fun bytes => (bytes, image.def_.versionOf bytes))
    else none)

theorem versioned_eq_some {s : CatState} {table : String} {key bytes : Bytes} {v : WithBot Int} :
    s.versioned table key = some (bytes, v) ↔
      ∃ image, OrdMap.find table s.tables = some image ∧ s.rowAt table key = some bytes ∧
        image.def_.versionColumn.isSome = true ∧ image.def_.versionOf bytes = v := by
  rw [CatState.versioned]
  cases himage : OrdMap.find table s.tables with
  | none => simp
  | some image =>
    rw [CatState.rowAt_of_find key himage, Option.bind_some]
    cases hver : image.def_.versionColumn.isSome with
    | false => simp [hver]
    | true => simp [hver]

/-- **Rowversion.** Let a run rewrite no versioned row by a closure and update no row whose
version is at its limit. From a state of it, over any further jobs in which a versioned row stays
stored, its version never falls, and the row is the same bytes or has a strictly larger
version. -/
theorem rowversion_guards {ops : List JobOp} {s₀ s : CatState} (h : RunWhere StepsVersions ops s₀)
    {table : String} {key bytes₀ : Bytes} {v₀ : WithBot Int}
    (hrow : s₀.versioned table key = some (bytes₀, v₀))
    (hlater : RunFrom (StepsVersions.and (Lives table key)) s₀ s) :
    ∃ bytes v, s.versioned table key = some (bytes, v) ∧ v₀ ≤ v ∧ (bytes = bytes₀ ∨ v₀ < v) := by
  obtain ⟨image₀, himage, hrow, hver, hv₀⟩ := versioned_eq_some.1 hrow
  have hstart : Aged table key bytes₀ v₀ s₀ :=
    ⟨image₀, bytes₀, himage, hrow, hver, hv₀.ge, .inl rfl⟩
  obtain ⟨-, image, bytes, himage', hbytes, hver', hle, hcase⟩ :=
    RunFrom.induct aged_kept ⟨h.sound, hstart⟩ hlater
  exact ⟨bytes, _, versioned_eq_some.2 ⟨image, himage', hbytes, hver', rfl⟩, hle, hcase⟩

/-! ### Guards -/

/-- A policy that selects rows of one version only. -/
def RowUpdater.GuardedBy (policy : RowUpdater) (v : WithBot Int) : Prop :=
  ∀ (d : TableDef) ci row, d.versionColumn = some ci → policy.selects d row = .ok true →
    versionNumber (row.getD ci .null) = v

theorem RowUpdater.GuardedBy.version {policy : RowUpdater} {v : WithBot Int}
    (h : policy.GuardedBy v) {d : TableDef} (hver : d.versionColumn.isSome = true) {bytes : Bytes}
    {row : List Value} (hrow : decodePadded d bytes = .ok row)
    (hselects : policy.selects d row = .ok true) : d.versionOf bytes = v := by
  obtain ⟨ci, hci⟩ := Option.isSome_iff_exists.1 hver
  rw [TableDef.versionOf, hrow, hci]
  exact h d ci row hci hselects

/-- The rows a policy changes are those it selects. -/
theorem matchRows_selects {env : Env} {s : CatState} {table : String} {def_ : TableDef}
    {policy : RowUpdater} {ordinal : Nat} {added : List (String × Bytes)} {data : TreeContents}
    {deltas : List RowDelta}
    (h : matchRows env s table def_ policy ordinal added data = .ok deltas) :
    ∀ d ∈ deltas, policy.selects def_ d.oldRow = .ok true := by
  induction data generalizing ordinal added deltas with
  | nil =>
    cases h
    exact fun d hd => absurd hd List.not_mem_nil
  | cons e data ih =>
    obtain ⟨pkKey, bytes⟩ := e
    obtain ⟨oldRow, hold, h⟩ := Result.bind_eq_ok.1 h
    obtain ⟨hit, hhit, h⟩ := Result.bind_eq_ok.1 h
    cases hit with
    | false => exact ih h
    | true =>
      obtain ⟨sets, -, h⟩ := Result.bind_eq_ok.1 h
      obtain ⟨d, hd, h⟩ := Result.bind_eq_ok.1 h
      obtain ⟨deltas', hdeltas, h⟩ := Result.bind_eq_ok.1 h
      cases h
      refine List.forall_mem_cons.2 ⟨?_, ih hdeltas⟩
      rw [(changeRow_eq_ok hd).2.1]
      exact rej_eq_ok.1 hhit

/-- Of two updates guarded by one version of a row only one changes it: when one has, and the row
is still stored, the other does not select it, whatever the jobs in between. -/
theorem guarded_once {ops : List JobOp} {s₀ s₁ s : CatState} (h : RunWhere StepsVersions ops s₀)
    {table : String} {key : Bytes} {envs : Nat → Env} {fuel : Nat} {out : JobOut} {v : WithBot Int}
    {policy policy' : RowUpdater} (hguard : policy.GuardedBy v) (hguard' : policy'.GuardedBy v)
    (hC : (StepsVersions.and (Lives table key)) (envs 0) fuel s₀ (.updateWhere table policy))
    (happly : apply envs fuel s₀ (.updateWhere table policy) = .ok (out, s₁)) {image : TableImage}
    (himage : OrdMap.find table s₀.tables = some image)
    (hver : image.def_.versionColumn.isSome = true) {deltas : List RowDelta}
    (htargets : (JobOp.updateWhere table policy).Targets (envs 0) s₀ table image deltas)
    (hkey : key ∈ deltas.map RowDelta.pkKey)
    (hlater : RunFrom (StepsVersions.and (Lives table key)) s₁ s) {env : Env}
    {image' : TableImage} (himage' : OrdMap.find table s.tables = some image')
    {deltas' : List RowDelta}
    (htargets' : (JobOp.updateWhere table policy').Targets env s table image' deltas') :
    key ∉ deltas'.map RowDelta.pkKey := by
  obtain ⟨d, hd, rfl⟩ := List.mem_map.1 hkey
  obtain ⟨ci, hci⟩ := Option.isSome_iff_exists.1 hver
  obtain ⟨referential, hchange⟩ := htargets.change himage happly
  have hnone : OrdMap.find (toLex (table, d.pkKey)) (rewritesOf referential) = none := by
    by_contra hne
    obtain ⟨w, hw⟩ := Option.ne_none_iff_exists'.1 hne
    cases referential with
    | none => cases hw
    | some plan =>
      have := hC.1.1 plan (hchange.plans htargets) _ (OrdMap.mem_of_find hw) image himage
      rw [this] at hci
      cases hci
  obtain ⟨check, now, sets, bytes, hmem, hold, -⟩ := hchange.rows d hd
  have hbytes := (OrdMap.find_eq_some_iff (h.sound.inOrder _ _ himage)).2 hmem
  obtain ⟨image₁, himage₁, hdef, hrow, hlt⟩ := hchange.outruns h.sound hd hnone hbytes hci
    (hC.1.2 _ _ _ himage htargets d hd ci hci)
  have hv := hguard.version hver hold (matchRows_selects htargets.2 d hd)
  -- from the first update on the version is larger
  have hstart : Aged table d.pkKey d.bytes (image.def_.versionOf d.bytes) s₁ := by
    refine ⟨image₁, d.bytes, himage₁, hrow, ?_⟩
    rw [hdef]
    exact ⟨hver, le_rfl, .inl rfl⟩
  have hmeets : Meets StepsVersions envs fuel s₀ (.updateWhere table policy) := hC.1
  have hsound₁ := (h.snoc hmeets happly).sound
  obtain ⟨hsound, image₂, bytes₂, himage₂, hrow₂, hver₂, hle, -⟩ :=
    RunFrom.induct aged_kept ⟨hsound₁, hstart⟩ hlater
  cases himage'.symm.trans himage₂
  intro hkey'
  obtain ⟨d', hd', hsame⟩ := List.mem_map.1 hkey'
  obtain ⟨hrows, -⟩ := matchRows_eq_ok htargets'.2 (List.Sublist.refl _)
  obtain ⟨check', now', sets', bytes', hmem', hold', -⟩ := (hrows d' hd').1
  rw [hsame, ← OrdMap.find_eq_some_iff (hsound.inOrder _ _ himage'),
    ← CatState.rowAt_of_find _ himage', hrow₂] at hmem'
  cases hmem'
  have hv' := hguard'.version hver₂ hold' (matchRows_selects htargets'.2 d' hd')
  rw [hv'] at hle
  rw [hv] at hlt
  exact absurd hle (not_le_of_gt hlt)

/-! ### Two updates of a note -/

/-- Notes with a version. -/
def notesDef : TableDef :=
  ⟨"notes", [ColumnDef.new "id" .i64, ColumnDef.new "body" .i64,
    { ColumnDef.new "version" .i64 with rowversion := true }], ["id"], [], [], []⟩

/-- One note. -/
def oneNote : List JobOp :=
  [.createTable notesDef, .insert "notes" [[("id", .i64 1), ("body", .i64 5)]]]

/-- A new body for the note. -/
def editNote : JobOp := .update "notes" [.i64 1] [("body", .i64 6)]

/-- The encoded key of the note. -/
def noteKey : Bytes := (encodeKey [.i64 1]).toOption.getD []

/-- No unique index that could be referenced, and no version at its limit. -/
def plainVersions (s : CatState) : Bool :=
  s.tables.all (fun t => t.2.def_.indexes.all (fun i => !i.unique) &&
    t.2.data.all (fun e => (decodePadded t.2.def_ e.2).toOption.all (fun row =>
      t.2.def_.versionColumn.all (fun ci => row.getD ci .null ≠ .i64 Int64.maxValue))))

theorem plainVersions_update {s : CatState} (h : plainVersions s = true) (env : Env) (fuel : Nat)
    (table : String) (pk : List Value) (sets : List (String × Value)) :
    StepsVersions env fuel s (.update table pk sets) := by
  rw [plainVersions, List.all_eq_true] at h
  constructor
  · rintro plan ⟨t, image, himage, ⟨deltas, -, hplan⟩ | ⟨seeds, hseeds, -⟩⟩
    · have hplain := (Bool.and_eq_true _ _ ▸ h _ (OrdMap.mem_of_find himage)).1
      rw [planReferential, planChanges, if_neg] at hplan
      · cases hplan
      · intro hany
        obtain ⟨i, hi, hunique⟩ := List.any_eq_true.1 hany
        have := List.all_eq_true.1 hplain i hi
        rw [hunique] at this
        cases this
    · exact hseeds.elim
  · rintro t image deltas himage ⟨-, pkKey, bytes, oldRow, d, -, hbytes, hold, hd, rfl⟩
      d' hd' ci hci
    have hrows := (Bool.and_eq_true _ _ ▸ h _ (OrdMap.mem_of_find himage)).2
    have hrow := List.all_eq_true.1 hrows _ (OrdMap.mem_of_find hbytes)
    rw [List.mem_singleton.1 hd', (changeRow_eq_ok hd).2.1]
    change (decodePadded image.def_ bytes).toOption.all _ = true at hrow
    rw [hold, hci] at hrow
    exact of_decide_eq_true hrow

/-- The note changed and is still there. -/
def noteEdited (s s' : CatState) : Bool :=
  plainVersions s && (s'.rowAt "notes" noteKey).isSome &&
    (s.versioned "notes" noteKey).any (fun a => (s'.versioned "notes" noteKey).any
      (fun b => a.1 ≠ b.1))

theorem rowversion_guards_note : ∃ s₀ s bytes₀ bytes v₀ v, RunWhere StepsVersions oneNote s₀ ∧
    s₀.versioned "notes" noteKey = some (bytes₀, v₀) ∧
    RunFrom (StepsVersions.and (Lives "notes" noteKey)) s₀ s ∧
    s.versioned "notes" noteKey = some (bytes, v) ∧ bytes ≠ bytes₀ ∧ v₀ < v := by
  obtain ⟨s₀, s, out, hrun, happly, htest⟩ := RunWhere.evalThen (C := StepsVersions)
    tickingEnv 9 oneNote editNote noteEdited
    (by
      intro op hop env s
      simp only [oneNote, List.mem_cons, List.not_mem_nil, or_false] at hop
      rcases hop with rfl | rfl
      all_goals
        constructor
        · rintro plan ⟨t, image, -, ⟨deltas, htargets, -⟩ | ⟨seeds, hseeds, -⟩⟩
          · exact htargets.elim
          · exact hseeds.elim
        · intro t image deltas _ htargets
          exact htargets.elim)
    (by decide +kernel)
  rw [noteEdited, Bool.and_eq_true, Bool.and_eq_true] at htest
  obtain ⟨⟨hplain, hlives⟩, hchanged⟩ := htest
  obtain ⟨⟨bytes₀, v₀⟩, hrow, hchanged⟩ := (Option.any_eq_true _ _).1 hchanged
  obtain ⟨⟨bytes₁, v₁⟩, hrow₁, hchanged⟩ := (Option.any_eq_true _ _).1 hchanged
  have hne : bytes₀ ≠ bytes₁ := of_decide_eq_true hchanged
  -- no foreign key is there, so the update meets the condition without a plan
  have hsteps : StepsVersions (tickingEnv 2) 9 s₀ editNote := plainVersions_update hplain ..
  have hstays : Lives "notes" noteKey (tickingEnv 2) 9 s₀ editNote := by
    intro out' s' h
    cases happly.symm.trans h
    exact hlives
  have hmeets : Meets (StepsVersions.and (Lives "notes" noteKey)) (fun _ => tickingEnv 2) 9 s₀
      editNote := ⟨hsteps, hstays⟩
  have hlater := RunFrom.refl.snoc hmeets happly
  obtain ⟨bytes, v, hrow', -, hcase⟩ := rowversion_guards hrun hrow hlater
  cases hrow₁.symm.trans hrow'
  exact ⟨s₀, s, bytes₀, bytes₁, v₀, v₁, hrun, hrow, hlater, hrow₁, hne.symm,
    hcase.resolve_left hne.symm⟩

/-! ### A versioned row that a closure rewrites -/

/-- The owners of things. -/
def ownersDef : TableDef := ⟨"owners", [ColumnDef.new "id" .i64], ["id"], [], [], []⟩

/-- A thing loses its owner when the owner goes. -/
def ownerFk : ForeignKey := ⟨"of_owner", ["owner"], "owners", ["id"], .setNull, .restrict⟩

/-- Things with an owner and a version. -/
def thingsDef : TableDef :=
  ⟨"things", [ColumnDef.new "id" .i64, { ColumnDef.new "owner" .i64 with nullable := true },
    { ColumnDef.new "version" .i64 with rowversion := true }], ["id"], [], [], [ownerFk]⟩

/-- One thing with its owner. -/
def ownedThing : List JobOp :=
  [.createTable ownersDef, .createTable thingsDef, .insert "owners" [[("id", .i64 1)]],
    .insert "things" [[("id", .i64 1), ("owner", .i64 1)]]]

/-- The encoded key of the thing. -/
def thingKey : Bytes := (encodeKey [.i64 1]).toOption.getD []

/-- The row changed and its version stayed. -/
def staleVersion (s s' : CatState) : Bool :=
  match s.versioned "things" thingKey, s'.versioned "things" thingKey with
  | some (bytes, v), some (bytes', v') => decide (bytes' ≠ bytes ∧ v' = v)
  | _, _ => false

/-- Deleting the owner sets the thing's owner to NULL and leaves its version. -/
theorem rewritten_row_keeps_version :
    ∃ s s' bytes bytes' v v', Run ownedThing s ∧ Commits s (.delete "owners" [.i64 1]) s' ∧
      s.versioned "things" thingKey = some (bytes, v) ∧
      s'.versioned "things" thingKey = some (bytes', v') ∧ bytes' ≠ bytes ∧ ¬ v < v' := by
  obtain ⟨s, s', out, hrun, happly, htest⟩ := RunWhere.evalThen (C := fun _ _ _ _ => True)
    tickingEnv 9 ownedThing (.delete "owners" [.i64 1]) staleVersion
    (by
      intro op hop env s
      simp only [ownedThing, List.mem_cons, List.not_mem_nil, or_false] at hop
      rcases hop with rfl | rfl | rfl | rfl <;> trivial)
    (by decide +kernel)
  rw [staleVersion] at htest
  split at htest
  · next bytes v bytes' v' hrow hrow' =>
    obtain ⟨hbytes, hv⟩ := of_decide_eq_true htest
    exact ⟨s, s', bytes, bytes', v, v', hrun.run, ⟨_, _, out, happly⟩, hrow, hrow', hbytes,
      hv ▸ lt_irrefl v'⟩
  · cases htest

end Edb.Catalog
