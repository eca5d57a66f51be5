import Edb.Catalog.Client
import Edb.Txn.Effect

/-!
# Dropping a table, on the pages

What the catalog holds is read off the pages: `EntryAt` is an entry of the catalog tree, and
`TreeAt` the tree an entry leads to. A drop that succeeds, at any moment of any life of the
database, takes the entries of its table away and no others, leaves every other tree as it was,
and supersedes the pages of the trees of the table, beside those the catalog tree gave up
(`dropTable_exact`).
-/

namespace Edb.Catalog.TreeJob

open Edb.Types Edb.Lib Edb.Txn

/-- The catalog tree at a root has the entry. -/
def EntryAt (p : Pager BTree.Node) (root : Nat) (k : StoreKey) (value : Bytes) : Prop :=
  TreeEntry p.view root (k.bytes, value)

/-- An entry of the catalog tree at a root leads to the tree. -/
def TreeAt (p : Pager BTree.Node) (root : Nat) (k : StoreKey) (r : Nat) : Prop :=
  isTree k = true ∧ ∃ value, EntryAt p root k value ∧ decodeRoot value = .ok r

section Pages

variable {p : Pager BTree.Node} {ts : List BTree.PageTree} {f : Forest} {es : List BTree.Entry}
variable {slots : Slots} {k : StoreKey} {value : Bytes} {r : Nat}

theorem Layout.entryAt_iff (h : Layout es slots f) (hheld : Holding p ts f.trees) :
    EntryAt p f.root k value ↔ entryIn es k = some value := by
  obtain ⟨t, ht, rfl⟩ := h.catalog
  rw [EntryAt, hheld.treeEntry_iff ht, entryIn, OrdMap.find_eq_some_iff t.sorted]

/-- The trees the catalog names are those a walk finds from its root. -/
theorem Layout.treeAt_iff (h : Layout es slots f) (hheld : Holding p ts f.trees) :
    TreeAt p f.root k r ↔ slotsOf es k = some r := by
  constructor
  · rintro ⟨htree, value, hentry, hr⟩
    exact slotsOf_eq_some htree ((h.entryAt_iff hheld).1 hentry) hr
  · intro hk
    rw [slotsOf] at hk
    split at hk
    · next htree =>
      obtain ⟨value, hvalue, hr⟩ := Option.bind_eq_some_iff.1 hk
      refine ⟨htree, value, (h.entryAt_iff hheld).2 hvalue, ?_⟩
      cases hdecode : decodeRoot value with
      | ok r' =>
        rw [hdecode] at hr
        cases hr
        rfl
      | error e =>
        rw [hdecode] at hr
        cases hr
    · cases hk

end Pages

/-- The pages a drop supersedes: those of the trees of its table, and those of the catalog tree it
found, or had written meanwhile, that the catalog tree it leaves has not kept. -/
def DropFrees (table : String) (p p' : Pager BTree.Node) (root root' id : Nat) : Prop :=
  (∃ k r, k.table = table ∧ TreeAt p root k r ∧ TreePage p.view r id) ∨
    ((TreePage p.view root id ∨ (p'.Owned id ∧ ¬ p.Owned id)) ∧ ¬ TreePage p'.view root' id)

section Drop

variable {table : String} {p p' : Pager BTree.Node} {f : Forest} {es es' : List BTree.Entry}
variable {origin : Origin} {l : Ledger} {fr : List Nat} {k : StoreKey} {r id : Nat}

/-- A tree of another table is there before and after the drop. -/
theorem Drops.other (hdrops : Drops table es some (.start f) es' origin l)
    (h : Consistent es f) (hk : slotsOf es' k = some r) :
    k.table ≠ table ∧ slotsOf es k = some r ∧ f.trees r ≠ none := by
  obtain ⟨hslot, hne⟩ := hdrops.removed.slotsOf_eq_some hk
  exact ⟨hne, hslot, (h.layout.current r).2 (.inr ⟨k, hslot⟩)⟩

/-- The pages a drop frees are those of the trees it drops and of the catalog it replaces. -/
theorem Drops.frees_iff (hdrops : Drops table es some (.start f) es' origin l)
    (h : Consistent es f) (heffect : JobEffect p p' f origin l fr) :
    id ∈ fr ↔ DropFrees table p p' f.root l.root id := by
  obtain ⟨ts, hfound⟩ := heffect.found
  have htree : ∀ k r, TreeAt p f.root k r ↔ slotsOf es k = some r := fun k r =>
    h.layout.treeAt_iff hfound
  have hcurrent : ∀ {k r}, slotsOf es k = some r → f.trees r ≠ none := fun {k r} hk =>
    (h.layout.current r).2 (.inr ⟨k, hk⟩)
  have hroot : f.trees f.root ≠ none := (h.layout.current f.root).2 (.inl rfl)
  have howned : ∀ {r}, f.trees r ≠ none → TreePage p.view r id → p.Owned id := fun hr hid =>
    hfound.owned (hfound.treePage_iff.2 ⟨_, hr, hid⟩)
  -- the trees the drop leaves: its catalog tree, and the other tables' trees on their old pages
  have hleft : ∀ r, l.trees r ≠ none → TreePage p'.view r id → r = l.root ∨
      ∃ k, k.table ≠ table ∧ slotsOf es k = some r ∧ TreePage p.view r id := by
    intro r hr hid
    rcases (hdrops.layout.current r).1 hr with hr | ⟨k, hk⟩
    · exact .inl hr
    · obtain ⟨hne, hslot, hr⟩ := hdrops.other h hk
      exact .inr ⟨k, hne, hslot, (hfound.treePage_grows hr heffect.view).1 hid⟩
  rw [heffect.superseded]
  constructor
  · rintro ⟨hin, hnot⟩
    have hroot' : ¬ TreePage p'.view l.root id :=
      hnot l.root ((hdrops.layout.current l.root).2 (.inl rfl))
    rcases hin with ⟨r, hr, hid⟩ | hnew
    · rcases (h.layout.current r).1 hr with rfl | ⟨k, hk⟩
      · exact .inr ⟨.inl hid, hroot'⟩
      · by_cases htable : k.table = table
        · exact .inl ⟨k, r, htable, (htree k r).2 hk, hid⟩
        · -- the tree is there after the drop
          have hk' : slotsOf es' k = some r := by
            rwa [slotsOf, hdrops.removed.edited.same k htable]
          exact absurd ((hfound.treePage_grows hr heffect.view).2 hid)
            (hnot r ((hdrops.layout.current r).2 (.inr ⟨k, hk'⟩)))
    · exact .inr ⟨.inr hnew, hroot'⟩
  · rintro (⟨k, r, htable, hk, hid⟩ | ⟨hin, hroot'⟩)
    · rw [htree] at hk
      refine ⟨.inl ⟨r, hcurrent hk, hid⟩, fun r' hr' hid' => ?_⟩
      rcases hleft r' hr' hid' with rfl | ⟨k', hne, hk', hid'⟩
      · -- the catalog tree has no pages but its own and new ones
        obtain ⟨r₀, horigin, hid₀⟩ := heffect.descends _ hr' id (howned (hcurrent hk) hid) hid'
        cases hdrops.advances.origin.symm.trans horigin
        exact h.layout.apart k (hfound.treePage_unique hroot (hcurrent hk) hid₀ hid ▸ hk)
      · obtain rfl := hfound.treePage_unique (hcurrent hk) (hcurrent hk') hid hid'
        exact hne (h.layout.inj hk' hk ▸ htable)
    · refine ⟨hin.imp_left fun hid => ⟨f.root, hroot, hid⟩, fun r' hr' hid' => ?_⟩
      rcases hleft r' hr' hid' with rfl | ⟨k', hne, hk', hid'⟩
      · exact hroot' hid'
      · rcases hin with hid | ⟨-, hnot⟩
        · obtain rfl := hfound.treePage_unique hroot (hcurrent hk') hid hid'
          exact h.layout.apart k' hk'
        · exact hnot (howned (hcurrent hk') hid')

end Drop

/-- **A drop is exact.** Of the table nothing is left in the catalog. Of every other table the
entries are the same, its definition, its sequence and its roots among them, and so are the
bindings and the pages of the trees they lead to. What the drop adds to the superseded pages of
its batch are the pages of the trees of the table, all of them, and pages of the catalog tree. -/
theorem dropTable_exact {s s' : catalogClient.State} {w w' : Writer} {freed freed' : List Nat}
    {outcomes : List (Except (TxnError CatalogError) Unit)} {table : String}
    (hbetween : catalogClient.Between s w freed)
    (hdrop : Prog.Reaches (WriterOp.exec catalogClient.name) ReaderStep
      (applyJobs w freed outcomes [catalogClient.apply (.dropTable table)], s)
      (.ret (.ok (w', freed', outcomes ++ [.ok ()])), s')) :
    (∀ k value, k.table = table → ¬ EntryAt s'.pager w'.root k value) ∧
    (∀ k, k.table ≠ table →
      (∀ value, EntryAt s'.pager w'.root k value ↔ EntryAt s.pager w.root k value) ∧
      ∀ r, TreeAt s.pager w.root k r →
        (∀ e, TreeEntry s'.pager.view r e ↔ TreeEntry s.pager.view r e) ∧
        ∀ id, TreePage s'.pager.view r id ↔ TreePage s.pager.view r id) ∧
    (∃ fr, freed' = freed ++ fr ∧ fr.Nodup ∧
      ∀ id, id ∈ fr ↔ DropFrees table s.pager s'.pager w.root w'.root id) ∧
    ∀ k r id, TreeAt s.pager w.root k r → TreePage s.pager.view r id →
      s.pager.Owned id ∧ ¬ TreePage s.pager.view w.root id := by
  -- the run of the job on the pages, told by the ledger it yields
  obtain ⟨f, origin, l, fr, ⟨⟨es, h⟩, hroot⟩, hyields, hroot', hfreed, -, heffect⟩ :=
    hbetween.effect hdrop
  have hstart : Consistent es (Ledger.start f).toForest := h
  obtain ⟨es', hdrops⟩ := hyields _ (dropTable_drops hstart) () origin rfl
  obtain ⟨ts, hfound⟩ := heffect.found
  obtain ⟨ts', hleft⟩ := heffect.left
  rw [← hroot, hroot']
  refine ⟨fun k value hk hentry => ?_, fun k hk => ⟨fun value => ?_, fun r hr => ?_⟩,
    ⟨fr, hfreed, heffect.nodup, fun id => hdrops.frees_iff h heffect⟩, fun k r id hr hid => ?_⟩
  · rw [hdrops.layout.entryAt_iff hleft, hdrops.removed.gone k hk] at hentry
    cases hentry
  · rw [hdrops.layout.entryAt_iff hleft, h.layout.entryAt_iff hfound,
      hdrops.removed.edited.same k hk]
  · rw [h.layout.treeAt_iff hfound] at hr
    have hcurrent := (h.layout.current r).2 (.inr ⟨k, hr⟩)
    exact ⟨fun e => hfound.treeEntry_grows hcurrent heffect.view,
      fun id => hfound.treePage_grows hcurrent heffect.view⟩
  · rw [h.layout.treeAt_iff hfound] at hr
    have hcurrent := (h.layout.current r).2 (.inr ⟨k, hr⟩)
    refine ⟨hfound.owned (hfound.treePage_iff.2 ⟨r, hcurrent, hid⟩), fun hid' => ?_⟩
    have hsame := hfound.treePage_unique ((h.layout.current f.root).2 (.inl rfl)) hcurrent hid' hid
    exact h.layout.apart k (hsame ▸ hr)

/-- A table with an index. -/
def indexed (name : String) : TableDef :=
  ⟨name, [ColumnDef.new "id" .i64], ["id"], [], [⟨"i", ["id"], false⟩], []⟩

instance : DecidableEq catalogClient.Reject := inferInstanceAs (DecidableEq CatalogError)

instance : DecidableEq catalogClient.Out := inferInstanceAs (DecidableEq Unit)

/-- A catalog database that has just been created. -/
def catalogOpened : catalogClient.State × Writer :=
  catalogClient.spawn (endState (seed (Pager.create 0))) 2

/-- Two tables created in one batch, the name of one being that of the other and a zero byte. -/
def twoTables : catalogClient.Jobs :=
  Prog.advance (WriterOp.exec catalogClient.name) 16
    (applyJobs catalogOpened.2 [] []
      ([Request.createTable (indexed "t"), .createTable (indexed "t\x00")].map catalogClient.apply),
      catalogOpened.1)

/-- The first of them dropped in the same batch. -/
def oneDropped : catalogClient.Jobs :=
  Prog.advance (WriterOp.exec catalogClient.name) 16
    (applyJobs { root := 12, pending := [], orphaned := [] } [2, 4, 5, 7, 9, 10] [.ok (), .ok ()]
      [catalogClient.apply (.dropTable "t")], twoTables.2)

theorem twoTables_returned : twoTables.returned =
    some ({ root := 12, pending := [], orphaned := [] }, [2, 4, 5, 7, 9, 10],
      [.ok (), .ok ()]) := by
  decide +kernel

theorem twoTables_between : catalogClient.Between twoTables.2
    { root := 12, pending := [], orphaned := [] } [2, 4, 5, 7, 9, 10] := by
  refine ⟨catalogOpened.1, catalogOpened.1, catalogOpened.2, catalogOpened.2, [],
    [.createTable (indexed "t"), .createTable (indexed "t\x00")], [.ok (), .ok ()],
    .inl ⟨0, rfl⟩, .refl, ?_⟩
  have hreached : Prog.Reaches (WriterOp.exec catalogClient.name) ReaderStep _ twoTables :=
    Prog.reaches_advance 16 _
  rwa [Client.Jobs.eq_of_returned twoTables_returned] at hreached

/-- Pages 3 and 6 are those of the table and its index, the others of the catalog tree. -/
theorem oneDropped_returned : oneDropped.returned =
    some ({ root := 15, pending := [], orphaned := [] },
      [2, 4, 5, 7, 9, 10] ++ [3, 6, 12, 13, 14], [.ok (), .ok ()] ++ [.ok ()]) := by
  decide +kernel

theorem dropTable_exact_t :
    (∀ value, ¬ EntryAt oneDropped.2.pager 15 (.tbl "t") value) ∧
    ∀ id, id ∈ [3, 6, 12, 13, 14] ↔
      DropFrees "t" twoTables.2.pager oneDropped.2.pager 12 15 id := by
  have hreached : Prog.Reaches (WriterOp.exec catalogClient.name) ReaderStep
      (applyJobs { root := 12, pending := [], orphaned := [] } [2, 4, 5, 7, 9, 10]
        [.ok (), .ok ()] [catalogClient.apply (.dropTable "t")], twoTables.2) oneDropped :=
    Prog.reaches_advance 16 _
  rw [Client.Jobs.eq_of_returned oneDropped_returned] at hreached
  obtain ⟨hgone, -, ⟨fr, hfr, -, hfrees⟩, -⟩ := dropTable_exact twoTables_between hreached
  rw [List.append_cancel_left_eq] at hfr
  subst hfr
  exact ⟨fun value => hgone (.tbl "t") value rfl, hfrees⟩

end Edb.Catalog.TreeJob
