import Edb.Catalog.Codec
import Edb.Lib.Scanner

/-!
# Reading stored definitions

`decodeTable` reads what `encodeTable` wrote, and only the current version, without trailing
bytes. An accepted definition comes back as it was (`decodeTable_encodeTable`): the reader nests
CHECK expressions as deep as the validator does, and everything else it reads field by field in
the order written.
-/

namespace Edb.Catalog

open Edb.Types Edb.Lib

/-- A bounds-checked reader of stored bytes. -/
abbrev Reader := Scanner CatalogError UInt8

namespace Reader

def corrupt {α : Type} (kind : CatalogCorruption) : Reader α := fun _ => .error (.corrupt kind)

def take (n : Nat) : Reader Bytes := fun rest =>
  if rest.length < n then .error (.corrupt .truncated) else .ok (rest.take n, rest.drop n)

def byte : Reader UInt8
  | [] => .error (.corrupt .truncated)
  | b :: rest => .ok (b, rest)

/-- A `u16` little-endian count. -/
def count : Reader Nat := do
  let bytes ← take 2
  pure (fromLeBytes bytes)

/-- The value, or the corruption its absence is. -/
def orCorrupt {α : Type} (kind : CatalogCorruption) : Option α → Reader α
  | some a => pure a
  | none => corrupt kind

def string : Reader String := do
  let bytes ← take (← count)
  orCorrupt .invalidUtf8 (fromUtf8 bytes)

/-- The one value of a row. -/
def single : Except TypeError (List Value) → Reader Value
  | .ok [v] => pure v
  | _ => corrupt .badValue

/-- A literal, embedded as a row of one column. -/
def value : Reader Value := do
  let bytes ← take (← count)
  single (decodeRow bytes)

/-- A count and as many elements. -/
def list {α : Type} (item : Reader α) : Reader (List α) := do
  many item (← count)

def kindFrom : UInt8 → Reader TypeKind
  | 1 => pure .bool
  | 2 => pure .i64
  | 3 => pure .f64
  | 4 => pure .text
  | 5 => pure .blob
  | 6 => pure .uuid
  | 7 => pure .json
  | 8 => pure .timestamp
  | tag => corrupt (.badTag tag)

def actionFrom : UInt8 → Reader RefAction
  | 1 => pure .restrict
  | 2 => pure .cascade
  | 3 => pure .setNull
  | tag => corrupt (.badTag tag)

def opFrom : UInt8 → Reader CmpOp
  | 1 => pure .eq
  | 2 => pure .ne
  | 3 => pure .lt
  | 4 => pure .lte
  | 5 => pure .gt
  | 6 => pure .gte
  | tag => corrupt (.badTag tag)

def boolFrom : UInt8 → Reader Bool
  | 0 => pure false
  | 1 => pure true
  | tag => corrupt (.badTag tag)

def defaultFrom : UInt8 → Reader (Option DefaultSpec)
  | 0 => pure none
  | 1 => do
    let v ← value
    pure (some (.value v))
  | 2 => pure (some .now)
  | 3 => pure (some .uuidV7)
  | tag => corrupt (.badTag tag)

def defaultSpec : Reader (Option DefaultSpec) := do
  defaultFrom (← byte)

/-- The column a flag byte describes. -/
def columnFrom (name : String) (kind : TypeKind) (flags : UInt8) (default : Option DefaultSpec) :
    ColumnDef :=
  { name, kind, default,
    nullable := flags &&& 1 ≠ 0,
    unique := flags &&& 2 ≠ 0,
    autoIncrement := flags &&& 4 ≠ 0,
    rowversion := flags &&& 8 ≠ 0,
    onUpdateNow := flags &&& 16 ≠ 0,
    update := if flags &&& 32 ≠ 0 then .guarded else .free }

def column : Reader ColumnDef := do
  let name ← string
  let kind ← kindFrom (← byte)
  let flags ← byte
  let default ← defaultSpec
  pure (columnFrom name kind flags default)

/-- The expression behind a tag, given the reader of nested ones. -/
def checkFrom (nested : Reader CheckExpr) : UInt8 → Reader CheckExpr
  | 1 => do
    let col ← string
    let op ← opFrom (← byte)
    let v ← value
    pure (.cmp col op v)
  | 2 => do
    let col ← string
    pure (.isNull col)
  | 3 => do
    let col ← string
    pure (.isNotNull col)
  | 4 => do
    let items ← list nested
    pure (.and items)
  | 5 => do
    let items ← list nested
    pure (.or items)
  | 6 => do
    let inner ← nested
    pure (.not inner)
  | tag => corrupt (.badTag tag)

/-- A CHECK expression. The source counts the depth up to its limit; here the levels left are
counted, this one included. -/
def check : Nat → Reader CheckExpr
  | 0 => corrupt .depthExceeded
  | levels + 1 => do
    checkFrom (check levels) (← byte)

def index : Reader IndexDef := do
  let name ← string
  let unique ← boolFrom (← byte)
  let columns ← list string
  pure { name, columns, unique }

def foreignKey : Reader ForeignKey := do
  let name ← string
  let columns ← list string
  let parent ← string
  let parentColumns ← list string
  let onDelete ← actionFrom (← byte)
  let onUpdate ← actionFrom (← byte)
  pure { name, columns, parent, parentColumns, onDelete, onUpdate }

/-- A definition, up to its last field. -/
def table : Reader TableDef := do
  let version ← byte
  if version ≠ Codec.version then corrupt (.badVersion version)
  else do
    let name ← string
    let columns ← list column
    let pk ← list string
    let checks ← list (check (maxCheckDepth + 1))
    let indexes ← list index
    let foreignKeys ← list foreignKey
    pure { name, columns, pk, checks, indexes, foreignKeys }

end Reader

/-- Decode a stored table definition. -/
def decodeTable (bytes : Bytes) : CatResult TableDef := do
  let (def_, rest) ← Reader.table bytes
  if rest ≠ [] then .error (.corrupt .trailingBytes) else pure def_

/-! ## What is written comes back -/

namespace Codec

theorem byte_scans (b : UInt8) (rest : Bytes) : Scans Reader.byte (b :: rest) b rest := rfl

theorem take_scans (head rest : Bytes) :
    Scans (Reader.take head.length) (head ++ rest) head rest := by
  unfold Scans Reader.take
  rw [if_neg (by simp), List.take_left, List.drop_left]

/-- A count that was encoded is decoded. -/
theorem pushCount_returns (n : Nat) : Returns (pushCount n) Reader.count n := by
  intro out hout rest
  unfold pushCount at hout
  split at hout
  · next hn =>
    cases hout
    have htake := take_scans (toLeBytes 2 n) rest
    rw [length_toLeBytes] at htake
    refine Scans.bind htake ?_
    rw [fromLeBytes_toLeBytes (by omega)]
    exact Scans.ret n rest
  · cases hout

/-- Bytes behind their length are taken back and handed on. -/
theorem counted_scans {α : Type} {bytes count : Bytes} {k : Bytes → Reader α} {a : α}
    {rest : Bytes} (hcount : pushCount bytes.length = .ok count)
    (hk : Scans (k bytes) rest a rest) :
    Scans (Reader.count >>= fun n => Reader.take n >>= k) (count ++ bytes ++ rest) a rest := by
  rw [List.append_assoc]
  refine Scans.bind (pushCount_returns _ count hcount _) ?_
  exact Scans.bind (take_scans bytes rest) hk

theorem pushStr_returns (s : String) : Returns (pushStr s) Reader.string s := by
  intro out hout rest
  obtain ⟨count, hcount, hout⟩ := Result.bind_eq_ok.1 hout
  cases hout
  refine counted_scans hcount ?_
  rw [fromUtf8_asBytes]
  exact Scans.ret s rest

theorem pushValue_returns (v : Value) : Returns (pushValue v) Reader.value v := by
  intro out hout rest
  obtain ⟨bytes, hbytes, hout⟩ := Result.bind_eq_ok.1 hout
  obtain ⟨count, hcount, hout⟩ := Result.bind_eq_ok.1 hout
  cases hout
  refine counted_scans hcount ?_
  rw [decodeRow_encodeRow (ofType_eq_ok.1 hbytes)]
  exact Scans.ret v rest

/-- A count and the elements behind it are read back as a list. -/
theorem list_scans {α : Type} {push : α → CatResult Bytes} (pushAll : List α → CatResult Bytes)
    {item : Reader α} (hnil : pushAll [] = .ok [])
    (hcons : ∀ a as, pushAll (a :: as) = (push a >>= fun head =>
      pushAll as >>= fun rest => .ok (head ++ rest)))
    {as : List α} (h : ∀ a ∈ as, Returns (push a) item a) {count body : Bytes}
    (hcount : pushCount as.length = .ok count) (hbody : pushAll as = .ok body) (rest : Bytes) :
    Scans (Reader.list item) (count ++ body ++ rest) as rest := by
  rw [List.append_assoc]
  refine Scans.bind (pushCount_returns _ count hcount _) ?_
  exact many_returns hnil hcons h body hbody rest

theorem pushList_returns {α : Type} {push : α → CatResult Bytes} {item : Reader α} {as : List α}
    (h : ∀ a ∈ as, Returns (push a) item a) : Returns (pushList push as) (Reader.list item) as := by
  intro out hout rest
  obtain ⟨count, hcount, hout⟩ := Result.bind_eq_ok.1 hout
  obtain ⟨body, hbody, hout⟩ := Result.bind_eq_ok.1 hout
  cases hout
  exact list_scans (pushAll push) rfl (fun _ _ => rfl) h hcount hbody rest

theorem kindFrom_scans (kind : TypeKind) (rest : Bytes) :
    Scans (Reader.kindFrom (kindCode kind)) rest kind rest := by
  cases kind <;> rfl

theorem actionFrom_scans (action : RefAction) (rest : Bytes) :
    Scans (Reader.actionFrom (actionCode action)) rest action rest := by
  cases action <;> rfl

theorem opFrom_scans (op : CmpOp) (rest : Bytes) :
    Scans (Reader.opFrom (opCode op)) rest op rest := by
  cases op <;> rfl

theorem boolFrom_scans (b : Bool) (rest : Bytes) :
    Scans (Reader.boolFrom (flag b 1)) rest b rest := by
  cases b <;> rfl

/-! ### Columns -/

/-- A default is decoded from its encoding. -/
theorem pushDefault_returns (default : Option DefaultSpec) :
    Returns (pushDefault default) Reader.defaultSpec default := by
  intro out hout rest
  match default with
  | none =>
    cases hout
    exact Scans.bind (byte_scans 0 rest) (Scans.ret none rest)
  | some (.value v) =>
    obtain ⟨bytes, hbytes, hout⟩ := Result.bind_eq_ok.1 hout
    cases hout
    refine Scans.bind (byte_scans 1 (bytes ++ rest)) ?_
    exact Scans.bind (pushValue_returns v bytes hbytes rest) (Scans.ret _ rest)
  | some .now =>
    cases hout
    exact Scans.bind (byte_scans 2 rest) (Scans.ret _ rest)
  | some .uuidV7 =>
    cases hout
    exact Scans.bind (byte_scans 3 rest) (Scans.ret _ rest)

/-- Each flag is in a bit of its own. -/
theorem flag_bits (n u a r o g : Bool) {flags : UInt8}
    (hflags : flags = flag n 1 ||| flag u 2 ||| flag a 4 ||| flag r 8 ||| flag o 16 ||| flag g 32) :
    decide (flags &&& 1 ≠ 0) = n ∧ decide (flags &&& 2 ≠ 0) = u ∧ decide (flags &&& 4 ≠ 0) = a ∧
      decide (flags &&& 8 ≠ 0) = r ∧ decide (flags &&& 16 ≠ 0) = o ∧
      decide (flags &&& 32 ≠ 0) = g := by
  subst hflags
  revert n u a r o g
  decide

theorem columnFrom_flags (col : ColumnDef) :
    Reader.columnFrom col.name col.kind (columnFlags col) col.default = col := by
  obtain ⟨hn, hu, ha, hr, ho, hg⟩ := flag_bits _ _ _ _ _ _ (rfl : columnFlags col = _)
  have hupdate : (if columnFlags col &&& 32 ≠ 0 then UpdatePolicy.guarded else .free) =
      col.update := by
    rw [decide_eq_decide] at hg
    cases hcase : col.update <;> simp [hg, hcase]
  rw [Reader.columnFrom, hn, hu, ha, hr, ho, hupdate]

/-- A column is decoded from its encoding. -/
theorem pushColumn_returns (col : ColumnDef) : Returns (pushColumn col) Reader.column col := by
  intro out hout rest
  obtain ⟨name, hname, hout⟩ := Result.bind_eq_ok.1 hout
  obtain ⟨default, hdefault, hout⟩ := Result.bind_eq_ok.1 hout
  cases hout
  rw [List.append_assoc, List.append_assoc]
  refine Scans.bind (pushStr_returns _ name hname _) ?_
  refine Scans.bind (byte_scans (kindCode col.kind) (columnFlags col :: (default ++ rest))) ?_
  refine Scans.bind (kindFrom_scans col.kind _) ?_
  refine Scans.bind (byte_scans (columnFlags col) (default ++ rest)) ?_
  refine Scans.bind (pushDefault_returns _ default hdefault rest) ?_
  rw [columnFrom_flags]
  exact Scans.ret col rest

/-! ### CHECK expressions -/

/-- The validator goes no deeper than the limit. -/
theorem depth_le_of_validate {d : TableDef} {depth : Nat} {e : CheckExpr}
    (h : CheckExpr.validate d depth e = .ok ()) : depth ≤ maxCheckDepth := by
  by_contra hdepth
  have hdepth : depth > maxCheckDepth := by omega
  cases e <;> rw [CheckExpr.validate, if_pos hdepth] at h <;> cases h

mutual

/-- An accepted expression comes back, if the reader may nest as deep as the validator went. -/
theorem pushCheck_returns {d : TableDef} {depth levels : Nat}
    (hlevels : depth + levels = maxCheckDepth + 1) : ∀ e : CheckExpr,
    CheckExpr.validate d depth e = .ok () → Returns (pushCheck e) (Reader.check levels) e := by
  intro e hvalid out hout rest
  have hdepth := depth_le_of_validate hvalid
  -- a valid check is no deeper than the reader goes, so a level is left for this node
  obtain ⟨levels, rfl⟩ : ∃ l, levels = l + 1 := ⟨levels - 1, by omega⟩
  have hdeep : ¬ depth > maxCheckDepth := by omega
  match e with
  -- a leaf: the tag, then its fields one after another
  | .cmp col op v =>
    obtain ⟨name, hname, hout⟩ := Result.bind_eq_ok.1 hout
    obtain ⟨literal, hliteral, hout⟩ := Result.bind_eq_ok.1 hout
    cases hout
    rw [List.append_assoc, List.append_assoc, List.append_assoc]
    refine Scans.bind (byte_scans 1 _) ?_
    refine Scans.bind (pushStr_returns col name hname _) ?_
    refine Scans.bind (byte_scans (opCode op) (literal ++ rest)) ?_
    refine Scans.bind (opFrom_scans op _) ?_
    exact Scans.bind (pushValue_returns v literal hliteral rest) (Scans.ret _ rest)
  | .isNull col =>
    obtain ⟨name, hname, hout⟩ := Result.bind_eq_ok.1 hout
    cases hout
    refine Scans.bind (byte_scans 2 (name ++ rest)) ?_
    exact Scans.bind (pushStr_returns col name hname rest) (Scans.ret _ rest)
  | .isNotNull col =>
    obtain ⟨name, hname, hout⟩ := Result.bind_eq_ok.1 hout
    cases hout
    refine Scans.bind (byte_scans 3 (name ++ rest)) ?_
    exact Scans.bind (pushStr_returns col name hname rest) (Scans.ret _ rest)
  -- a list counts one level for all its items
  | .and items =>
    rw [CheckExpr.validate, if_neg hdeep] at hvalid
    split at hvalid
    · cases hvalid
    · obtain ⟨count, hcount, hout⟩ := Result.bind_eq_ok.1 hout
      obtain ⟨body, hbody, hout⟩ := Result.bind_eq_ok.1 hout
      cases hout
      have hitems := pushChecks_returns
        (show depth + 1 + levels = maxCheckDepth + 1 by omega) items hvalid
      refine Scans.bind (byte_scans 4 (count ++ body ++ rest)) ?_
      exact Scans.bind (list_scans pushChecks rfl (fun _ _ => rfl) hitems hcount hbody
        rest) (Scans.ret _ rest)
  | .or items =>
    rw [CheckExpr.validate, if_neg hdeep] at hvalid
    split at hvalid
    · cases hvalid
    · obtain ⟨count, hcount, hout⟩ := Result.bind_eq_ok.1 hout
      obtain ⟨body, hbody, hout⟩ := Result.bind_eq_ok.1 hout
      cases hout
      have hitems := pushChecks_returns
        (show depth + 1 + levels = maxCheckDepth + 1 by omega) items hvalid
      refine Scans.bind (byte_scans 5 (count ++ body ++ rest)) ?_
      exact Scans.bind (list_scans pushChecks rfl (fun _ _ => rfl) hitems hcount hbody
        rest) (Scans.ret _ rest)
  | .not inner =>
    rw [CheckExpr.validate, if_neg hdeep] at hvalid
    obtain ⟨body, hbody, hout⟩ := Result.bind_eq_ok.1 hout
    cases hout
    refine Scans.bind (byte_scans 6 (body ++ rest)) ?_
    exact Scans.bind (pushCheck_returns (by omega) inner hvalid body hbody rest)
      (Scans.ret _ rest)

theorem pushChecks_returns {d : TableDef} {depth levels : Nat}
    (hlevels : depth + levels = maxCheckDepth + 1) : ∀ items : List CheckExpr,
    CheckExpr.validateAll d depth items = .ok () →
      ∀ item ∈ items, Returns (pushCheck item) (Reader.check levels) item
  | [], _ => fun _ h => nomatch h
  | item :: items, hvalid => by
    obtain ⟨_, hitem, hitems⟩ := Result.bind_eq_ok.1 hvalid
    exact List.forall_mem_cons.2 ⟨pushCheck_returns hlevels item hitem,
      pushChecks_returns hlevels items hitems⟩

end

/-! ### Indexes and foreign keys -/

theorem pushStrs_returns (names : List String) :
    Returns (pushList pushStr names) (Reader.list Reader.string) names :=
  pushList_returns fun s _ => pushStr_returns s

/-- An index is decoded from its encoding. -/
theorem pushIndex_returns (index : IndexDef) : Returns (pushIndex index) Reader.index index := by
  intro out hout rest
  obtain ⟨name, hname, hout⟩ := Result.bind_eq_ok.1 hout
  obtain ⟨columns, hcolumns, hout⟩ := Result.bind_eq_ok.1 hout
  cases hout
  rw [List.append_assoc, List.append_assoc]
  refine Scans.bind (pushStr_returns _ name hname _) ?_
  refine Scans.bind (byte_scans (flag index.unique 1) (columns ++ rest)) ?_
  refine Scans.bind (boolFrom_scans index.unique _) ?_
  exact Scans.bind (pushStrs_returns _ columns hcolumns rest) (Scans.ret index rest)

/-- A foreign key is decoded from its encoding. -/
theorem pushFk_returns (fk : ForeignKey) : Returns (pushFk fk) Reader.foreignKey fk := by
  intro out hout rest
  obtain ⟨name, hname, hout⟩ := Result.bind_eq_ok.1 hout
  obtain ⟨columns, hcolumns, hout⟩ := Result.bind_eq_ok.1 hout
  obtain ⟨parent, hparent, hout⟩ := Result.bind_eq_ok.1 hout
  obtain ⟨parentColumns, hparentColumns, hout⟩ := Result.bind_eq_ok.1 hout
  cases hout
  rw [List.append_assoc, List.append_assoc, List.append_assoc, List.append_assoc]
  refine Scans.bind (pushStr_returns _ name hname _) ?_
  refine Scans.bind (pushStrs_returns _ columns hcolumns _) ?_
  refine Scans.bind (pushStr_returns _ parent hparent _) ?_
  refine Scans.bind (pushStrs_returns _ parentColumns hparentColumns _) ?_
  refine Scans.bind (byte_scans (actionCode fk.onDelete) _) ?_
  refine Scans.bind (actionFrom_scans fk.onDelete _) ?_
  refine Scans.bind (byte_scans (actionCode fk.onUpdate) rest) ?_
  exact Scans.bind (actionFrom_scans fk.onUpdate _) (Scans.ret fk rest)

end Codec

/-! ## Whole definitions -/

theorem validateAll_of_validate {def_ : TableDef} (h : def_.validate = .ok ()) :
    CheckExpr.validateAll def_ 0 def_.checks = .ok () := by
  unfold TableDef.validate at h
  simp only [invalid, Result.error_bind, Result.guard_eq_ok] at h
  obtain ⟨-, -, h⟩ := h
  obtain ⟨⟨⟩, -, h⟩ := Result.bind_eq_ok.1 h
  simp only [Result.guard_eq_ok] at h
  obtain ⟨-, -, -, h⟩ := h
  obtain ⟨⟨⟩, -, h⟩ := Result.bind_eq_ok.1 h
  obtain ⟨⟨⟩, hchecks, -⟩ := Result.bind_eq_ok.1 h
  exact hchecks

open Codec in
/-- A definition with CHECKs that are nested no deeper than accepted can be read back. -/
theorem decodeTable_of_checks {d def_ : TableDef} {bytes : Bytes}
    (hvalid : CheckExpr.validateAll d 0 def_.checks = .ok ())
    (hbytes : encodeTable def_ = .ok bytes) : decodeTable bytes = .ok def_ := by
  obtain ⟨name, hname, h⟩ := Result.bind_eq_ok.1 hbytes
  obtain ⟨columns, hcolumns, h⟩ := Result.bind_eq_ok.1 h
  obtain ⟨pk, hpk, h⟩ := Result.bind_eq_ok.1 h
  obtain ⟨count, hcount, h⟩ := Result.bind_eq_ok.1 h
  obtain ⟨checks, hchecks, h⟩ := Result.bind_eq_ok.1 h
  obtain ⟨indexes, hindexes, h⟩ := Result.bind_eq_ok.1 h
  obtain ⟨fks, hfks, h⟩ := Result.bind_eq_ok.1 h
  cases h
  have hall := pushChecks_returns (Nat.zero_add (maxCheckDepth + 1)) def_.checks hvalid
  have hscan : Scans Reader.table
      (version :: (name ++ (columns ++ (pk ++ (count ++ checks ++ (indexes ++ (fks ++ []))))))) def_
      [] := by
    refine Scans.bind (byte_scans version _) ?_
    rw [if_neg (not_not.2 rfl)]
    refine Scans.bind (pushStr_returns _ name hname _) ?_
    refine Scans.bind (pushList_returns (fun c _ => pushColumn_returns c) columns hcolumns _) ?_
    refine Scans.bind (pushStrs_returns _ pk hpk _) ?_
    refine Scans.bind (list_scans pushChecks rfl (fun _ _ => rfl) hall hcount hchecks
      _) ?_
    refine Scans.bind (pushList_returns (fun i _ => pushIndex_returns i) indexes hindexes _) ?_
    refine Scans.bind (pushList_returns (fun f _ => pushFk_returns f) fks hfks _) ?_
    exact Scans.ret def_ []
  have hsame : [version] ++ name ++ columns ++ pk ++ count ++ checks ++ indexes ++ fks =
      version :: (name ++ (columns ++ (pk ++ (count ++ checks ++ (indexes ++ (fks ++ [])))))) := by
    simp
  rw [hsame]
  unfold decodeTable
  rw [hscan, Result.ok_bind]
  rfl

/-- **An accepted definition comes back from storage as it was.** -/
theorem decodeTable_encodeTable {def_ : TableDef} {bytes : Bytes} (hvalid : def_.validate = .ok ())
    (hbytes : encodeTable def_ = .ok bytes) : decodeTable bytes = .ok def_ :=
  decodeTable_of_checks (validateAll_of_validate hvalid) hbytes

/-- A CHECK nested to the limit. -/
def deepCheck : Nat → CheckExpr
  | 0 => .isNotNull "id"
  | n + 1 => .not (deepCheck n)

def deepDef : TableDef :=
  ⟨"t", [ColumnDef.new "id" .i64], ["id"], [.or [deepCheck 15, .cmp "id" .gt (.i64 0)]], [], []⟩

theorem decodeTable_encodeTable_deep : ∃ bytes, encodeTable deepDef = .ok bytes ∧
    decodeTable bytes = .ok deepDef :=
  ⟨_, rfl, decodeTable_encodeTable rfl rfl⟩

/-- One level more is refused before it is stored. -/
example : TableDef.validate { deepDef with checks := [deepCheck 17] } =
    invalid "check expression nests too deeply" := rfl

end Edb.Catalog
