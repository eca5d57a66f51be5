import Edb.Catalog.TreeJob
import Edb.Txn.Ensures

/-!
# Where the trees of a catalog are

A slot is a key of the catalog tree that leads to a tree: a data root or an index root. `Layout`
says that the current trees are the catalog tree and one tree for each filled slot, no tree
filling two. While a job has changed a tree and not yet stored its root, the slots are ahead of
the entries of the catalog tree; between two jobs they are what the entries say (`slotsOf`).

Each operation of a catalog job has a rule here: where it leads from a layout, and what becomes
of the bindings in the slots (`contentsIn`).
-/

namespace Edb.Txn

/-- The bindings a mutation leaves. -/
def Op.on : Op → List BTree.Entry → List BTree.Entry
  | .put key value, es => Lib.OrdMap.insert key value es
  | .delete key, es => Lib.OrdMap.erase key es

end Edb.Txn

namespace Edb.Catalog.TreeJob

open Edb.Types Edb.Lib Edb.Txn

/-- A tree for each key that leads to one. -/
abbrev Slots := StoreKey → Option Nat

/-- The current trees are the catalog tree, with the entries `es`, and those in the slots. -/
structure Layout (es : List BTree.Entry) (slots : Slots) (f : Forest) : Prop where
  catalog : ∃ t, f.trees f.root = some t ∧ t.entries = es
  inj : ∀ {k k' r}, slots k = some r → slots k' = some r → k = k'
  current : ∀ r, f.trees r ≠ none ↔ r = f.root ∨ ∃ k, slots k = some r
  apart : ∀ k, slots k ≠ some f.root

namespace Layout

variable {es : List BTree.Entry} {slots : Slots} {l : Ledger} {k : StoreKey} {r fresh : Nat}

theorem exists_tree {f : Forest} (h : Layout es slots f) (hk : slots k = some r) :
    ∃ t, f.trees r = some t :=
  Option.ne_none_iff_exists'.1 ((h.current r).2 (.inr ⟨k, hk⟩))

theorem root_ne {f : Forest} (h : Layout es slots f) (hfresh : f.trees fresh = none) :
    fresh ≠ f.root := by
  rintro rfl
  obtain ⟨t, ht, -⟩ := h.catalog
  rw [ht] at hfresh
  cases hfresh

theorem slot_ne {f : Forest} (h : Layout es slots f) (hfresh : f.trees fresh = none)
    (k : StoreKey) : slots k ≠ some fresh := fun hk => (h.current fresh).2 (.inr ⟨k, hk⟩) hfresh

theorem sorted {f : Forest} (h : Layout es slots f) : OrdMap.Sorted es := by
  obtain ⟨t, -, rfl⟩ := h.catalog
  exact t.sorted

/-- The catalog tree moves to a fresh root. -/
theorem publish (h : Layout es slots l.toForest) (hfresh : l.trees fresh = none)
    (t : TreeState) : Layout t.entries slots
      { ((l.retire l.root).add fresh t).toForest with root := fresh } := by
  refine ⟨⟨t, if_pos rfl, rfl⟩, h.inj, fun x => ?_, h.slot_ne hfresh⟩
  show (if x = fresh then some t else if x = l.root then none else l.trees x) ≠ none ↔
    x = fresh ∨ ∃ k, slots k = some x
  by_cases hx : x = fresh
  · simp [hx]
  · by_cases hroot : x = l.root
    · subst hroot
      simp [hx, h.apart]
    · simpa [hx, hroot] using h.current x

theorem update_eq_some {o : Option Nat} {k' : StoreKey} {x : Nat} :
    Function.update slots k o k' = some x ↔
      (k' = k ∧ o = some x) ∨ (k' ≠ k ∧ slots k' = some x) := by
  by_cases hk : k' = k
  · subst hk
    simp
  · simp [hk]

/-- A tree fills an empty slot. -/
theorem fill (h : Layout es slots l.toForest) (hk : slots k = none)
    (hfresh : l.trees fresh = none) (t : TreeState) :
    Layout es (Function.update slots k (some fresh)) (l.add fresh t).toForest := by
  have hroot := h.root_ne hfresh
  refine ⟨?_, ?_, fun x => ?_, fun k' hk' => ?_⟩
  · obtain ⟨t₀, ht₀, hes⟩ := h.catalog
    exact ⟨t₀, (if_neg hroot.symm).trans ht₀, hes⟩
  · intro k₁ k₂ x h₁ h₂
    rw [update_eq_some] at h₁ h₂
    -- no other slot leads to the fresh tree
    rcases h₁ with ⟨rfl, hx⟩ | ⟨-, h₁⟩ <;> rcases h₂ with ⟨rfl, hx'⟩ | ⟨-, h₂⟩
    · rfl
    · cases hx
      exact absurd h₂ (h.slot_ne hfresh k₂)
    · cases hx'
      exact absurd h₁ (h.slot_ne hfresh k₁)
    · exact h.inj h₁ h₂
  · show (if x = fresh then some t else l.trees x) ≠ none ↔
      x = l.root ∨ ∃ k', Function.update slots k (some fresh) k' = some x
    simp only [update_eq_some, Option.some.injEq, exists_or]
    by_cases hx : x = fresh
    · simp [hx]
    · rw [if_neg hx, h.current x]
      have hne : ∀ k', slots k' = some x → k' ≠ k := by
        rintro k' hk' rfl
        rw [hk] at hk'
        cases hk'
      constructor
      · rintro (hr | ⟨k', hk'⟩)
        · exact .inl hr
        · exact .inr (.inr ⟨k', hne k' hk', hk'⟩)
      · rintro (hr | ⟨k', -, rfl⟩ | ⟨k', -, hk'⟩)
        · exact .inl hr
        · exact absurd rfl hx
        · exact .inr ⟨k', hk'⟩
  · rcases update_eq_some.1 hk' with ⟨-, hr⟩ | ⟨-, hk'⟩
    · exact hroot (Option.some.inj hr)
    · exact h.apart k' hk'

/-- A slot is emptied with its tree. -/
theorem clear (h : Layout es slots l.toForest) (hk : slots k = some r) :
    Layout es (Function.update slots k none) (l.retire r).toForest := by
  have hroot : l.root ≠ r := fun hr => h.apart k (hr ▸ hk)
  refine ⟨?_, ?_, fun x => ?_, fun k' hk' => ?_⟩
  · obtain ⟨t₀, ht₀, hes⟩ := h.catalog
    exact ⟨t₀, (if_neg hroot).trans ht₀, hes⟩
  · intro k₁ k₂ x h₁ h₂
    simp only [update_eq_some, reduceCtorEq, and_false, false_or] at h₁ h₂
    exact h.inj h₁.2 h₂.2
  · show (if x = r then none else l.trees x) ≠ none ↔
      x = l.root ∨ ∃ k', Function.update slots k none k' = some x
    simp only [update_eq_some, reduceCtorEq, and_false, false_or]
    by_cases hx : x = r
    · subst hx
      rw [if_pos rfl]
      refine ⟨fun hne => absurd rfl hne, ?_⟩
      rintro (hr | ⟨k', hne, hk'⟩)
      · exact absurd hr.symm hroot
      · exact absurd (h.inj hk' hk) hne
    · rw [if_neg hx, h.current x]
      refine or_congr_right ⟨?_, fun ⟨k', _, hk'⟩ => ⟨k', hk'⟩⟩
      rintro ⟨k', hk'⟩
      refine ⟨k', ?_, hk'⟩
      rintro rfl
      rw [hk] at hk'
      exact hx (Option.some.inj hk').symm
  · simp only [update_eq_some, reduceCtorEq, and_false, false_or] at hk'
    exact h.apart k' hk'.2

/-- A tree moves to a fresh root. -/
theorem move (h : Layout es slots l.toForest) (hk : slots k = some r)
    (hfresh : l.trees fresh = none) (t : TreeState) :
    Layout es (Function.update slots k (some fresh)) ((l.retire r).add fresh t).toForest := by
  have hfresh' : (l.retire r).trees fresh = none := by
    show (if fresh = r then none else l.trees fresh) = none
    rw [hfresh, ite_self]
  have hfill := fill (h.clear hk) (Function.update_self ..) hfresh' t
  rwa [Function.update_idem] at hfill

end Layout

/-! ## What the operations of a job lead to -/

/-- From one ledger of a job to a later one: what was retired stays so, the published root has
not moved unless it was retired, and the catalog tree is of the same origin. -/
structure Advances (origin : Origin) (l : Ledger) (origin' : Origin) (l' : Ledger) : Prop where
  retired : ∀ r ∈ l.retired, r ∈ l'.retired
  root : l'.root = l.root ∨ l.root ∈ l'.retired
  origin : origin' l'.root = origin l.root

/-- The trees in the slots are the same. -/
def Keeps (slots : Slots) (l l' : Ledger) : Prop :=
  ∀ k r, slots k = some r → l'.trees r = l.trees r

/-- The bindings of the trees in the slots. -/
abbrev Contents := StoreKey → Option TreeContents

def contentsIn (slots : Slots) (f : Forest) : Contents :=
  fun k => (slots k).bind fun r => (f.trees r).map TreeState.entries

/-- One slot is mutated. -/
def editContents (k : StoreKey) (op : Op) (c : Contents) : Contents :=
  Function.update c k ((c k).map op.on)

theorem Keeps.contents {slots : Slots} {l l' : Ledger} (h : Keeps slots l l') :
    contentsIn slots l'.toForest = contentsIn slots l.toForest := by
  funext k
  rw [contentsIn, contentsIn]
  cases hk : slots k with
  | none => rfl
  | some r => exact congrArg (Option.map TreeState.entries) (h k r hk)

theorem Advances.refl (origin : Origin) (l : Ledger) : Advances origin l origin l :=
  ⟨fun _ h => h, .inl rfl, rfl⟩

theorem Advances.trans {origin origin' origin'' : Origin} {l l' l'' : Ledger}
    (h : Advances origin l origin' l') (h' : Advances origin' l' origin'' l'') :
    Advances origin l origin'' l'' := by
  refine ⟨fun r hr => h'.retired r (h.retired r hr), ?_, h'.origin.trans h.origin⟩
  rcases h.root with hsame | hretired
  · rw [← hsame]
    exact h'.root
  · exact .inr (h'.retired _ hretired)

/-- A root that is retired stays so, and so does the one it has come from. -/
theorem Advances.retires {origin origin' origin'' : Origin} {l l' l'' : Ledger}
    (h : Advances origin l origin' l') (h' : Advances origin' l' origin'' l'')
    (hroot : l'.root ∈ l''.retired) : l.root ∈ l''.retired := by
  rcases h.root with hsame | hretired
  · exact hsame ▸ hroot
  · exact h'.retired _ hretired

section Rules

variable {α : Type} {es : List BTree.Entry} {slots : Slots} {origin : Origin} {l : Ledger}
variable {k : StoreKey} {r : Nat} {key value : Bytes}

theorem ensures_rej {Q : α → Origin → Ledger → Prop} {x : CatResult α}
    (h : ∀ a, x = .ok a → Q a origin l) : (rej x).Ensures Q origin l := by
  cases x with
  | ok a => exact .ret (h a rfl)
  | error e => exact .fail

theorem ensures_ofJob {Q : α → Origin → Ledger → Prop} {x : JobResult α}
    (h : ∀ a, x = .ok a → Q a origin l) : (ofJob x).Ensures Q origin l := by
  cases x with
  | ok a => exact .ret (h a rfl)
  | error e => exact .fail

theorem ensures_lookupEntry {Q : Option Bytes → Origin → Ledger → Prop}
    (h : Layout es slots l.toForest) (hQ : Q (OrdMap.find key es) origin l) :
    (lookupEntry key).Ensures Q origin l := by
  obtain ⟨t, ht, rfl⟩ := h.catalog
  exact .bind (.root (.lookup ht hQ))

theorem ensures_scanBand {Q : List BTree.Entry → Origin → Ledger → Prop} {band : Bytes × Bytes}
    (h : Layout es slots l.toForest)
    (hQ : Q (es.filter fun e => BTree.inBounds (some band.1) (some band.2) e.1) origin l) :
    (scanBand band).Ensures Q origin l := by
  obtain ⟨t, ht, rfl⟩ := h.catalog
  exact .bind (.root (.scan ht hQ))

/-- The published root moves with the catalog tree. -/
theorem advances_publish (fresh : Nat) (t : TreeState) :
    Advances origin l (Function.update origin fresh (origin l.root))
      { (l.retire l.root).add fresh t with root := fresh } :=
  ⟨fun _ hr => List.mem_cons_of_mem _ hr, .inr (List.mem_cons_self ..), Function.update_self ..⟩

theorem keeps_publish (h : Layout es slots l.toForest) {fresh : Nat}
    (hfresh : l.trees fresh = none) (t : TreeState) :
    Keeps slots l { (l.retire l.root).add fresh t with root := fresh } := by
  intro k r hk
  have hne : r ≠ fresh := fun hr => h.slot_ne hfresh k (hr ▸ hk)
  have hroot : r ≠ l.root := fun hr => h.apart k (hr ▸ hk)
  show (if r = fresh then some t else if r = l.root then none else l.trees r) = l.trees r
  rw [if_neg hne, if_neg hroot]

theorem ensures_storeEntry {Q : Unit → Origin → Ledger → Prop} (h : Layout es slots l.toForest)
    (hQ : ∀ origin' l', Layout (OrdMap.insert key value es) slots l'.toForest →
      Advances origin l origin' l' → l.root ∈ l'.retired → Keeps slots l l' → Q () origin' l') :
    (storeEntry key value).Ensures Q origin l := by
  obtain ⟨t, ht, rfl⟩ := h.catalog
  refine .bind (.root (.bind (.insert ht fun fresh t' hfresh hins => .setRoot ?_)))
  rw [← TreeState.entries_insert hins] at hQ
  exact hQ _ _ (h.publish hfresh t') (advances_publish fresh t') (List.mem_cons_self ..)
    (keeps_publish h hfresh t')

/-- Removing an entry of the catalog leaves every other entry. -/
theorem ensures_deleteEntry {Q : Unit → Origin → Ledger → Prop} (h : Layout es slots l.toForest)
    (hQ : ∀ origin' l', Layout (OrdMap.erase key es) slots l'.toForest →
      Advances origin l origin' l' → (OrdMap.find key es ≠ none → l.root ∈ l'.retired) →
      Keeps slots l l' → Q () origin' l') :
    (deleteEntry key).Ensures Q origin l := by
  obtain ⟨t, ht, rfl⟩ := h.catalog
  refine .bind (.root (.bind (.delete ht (fun fresh t' hfresh hdel => .setRoot ?_)
    fun hdel => .setRoot ?_)))
  · rw [← TreeState.entries_delete hdel] at hQ
    exact hQ _ _ (h.publish hfresh t') (advances_publish fresh t')
      (fun _ => List.mem_cons_self ..) (keeps_publish h hfresh t')
  · have habsent := TreeState.erase_of_delete_none hdel
    rw [OrdMap.erase_of_forall_ne habsent] at hQ
    refine hQ _ _ h (.refl origin l) (fun hfind => ?_) fun _ _ _ => rfl
    exact absurd (OrdMap.find_eq_none_of_forall_ne habsent) hfind

theorem ensures_createTree {Q : Nat → Origin → Ledger → Prop} (h : Layout es slots l.toForest)
    (hk : slots k = none)
    (hQ : ∀ fresh origin' l', Layout es (Function.update slots k (some fresh)) l'.toForest →
      Advances origin l origin' l' → Q fresh origin' l') :
    (Job.createTree : StoreJob Nat).Ensures Q origin l := by
  refine .createTree fun fresh hfresh => hQ fresh _ _ (h.fill hk hfresh _) ?_
  exact ⟨fun _ hr => hr, .inl rfl, Function.update_of_ne (h.root_ne hfresh).symm ..⟩

/-- Freeing a tree empties its slot and leaves the others. -/
theorem ensures_freeTree {Q : Unit → Origin → Ledger → Prop} (h : Layout es slots l.toForest)
    (hk : slots k = some r)
    (hQ : ∀ l', Layout es (Function.update slots k none) l'.toForest →
      Advances origin l origin l' → Keeps (Function.update slots k none) l l' → Q () origin l') :
    (Job.freeTree r : StoreJob Unit).Ensures Q origin l := by
  obtain ⟨t, ht⟩ := h.exists_tree hk
  refine .freeTree ht (hQ _ (h.clear hk) ?_ fun k' r' hk' => ?_)
  · exact ⟨fun _ hr => List.mem_cons_of_mem _ hr, .inl rfl, rfl⟩
  · simp only [Layout.update_eq_some, reduceCtorEq, and_false, false_or] at hk'
    refine if_neg fun hr => hk'.1 ?_
    subst hr
    exact h.inj hk'.2 hk

/-- A tree that moves to a fresh root leaves the bindings in the other slots as they are. -/
theorem contentsIn_move (h : Layout es slots l.toForest) (hk : slots k = some r) {fresh : Nat}
    (hfresh : l.trees fresh = none) (t : TreeState) :
    contentsIn (Function.update slots k (some fresh)) ((l.retire r).add fresh t).toForest =
      Function.update (contentsIn slots l.toForest) k (some t.entries) := by
  funext k'
  by_cases hk' : k' = k
  · subst hk'
    rw [contentsIn, Function.update_self, Function.update_self, Option.bind_some]
    exact congrArg (Option.map TreeState.entries) (if_pos rfl)
  · rw [contentsIn, Function.update_of_ne hk', Function.update_of_ne hk', contentsIn]
    cases hslot : slots k' with
    | none => rfl
    | some r' =>
      have hne : r' ≠ fresh := fun hr => h.slot_ne hfresh k' (hr ▸ hslot)
      have hne' : r' ≠ r := fun hr => hk' (h.inj (hr ▸ hslot) hk)
      exact congrArg (Option.map TreeState.entries) ((if_neg hne).trans (if_neg hne'))

/-- An edit of one tree moves its root, changes its contents by the edit and leaves the others. -/
theorem ensures_mutate {Q : Nat → Origin → Ledger → Prop} (h : Layout es slots l.toForest)
    (hk : slots k = some r) (op : Op)
    (hQ : ∀ r' origin' l', Layout es (Function.update slots k (some r')) l'.toForest →
      Advances origin l origin' l' →
      contentsIn (Function.update slots k (some r')) l'.toForest =
        editContents k op (contentsIn slots l.toForest) → Q r' origin' l') :
    (mutate r op).Ensures Q origin l := by
  obtain ⟨t, ht⟩ := h.exists_tree hk
  have hcontents : contentsIn slots l.toForest k = some t.entries := by
    rw [contentsIn, hk, Option.bind_some]
    exact congrArg (Option.map TreeState.entries) ht
  have hmove : ∀ fresh t', l.trees fresh = none → t'.entries = op.on t.entries →
      Q fresh (Function.update origin fresh (origin r)) ((l.retire r).add fresh t') := by
    intro fresh t' hfresh hentries
    refine hQ fresh _ _ (h.move hk hfresh t')
      ⟨fun _ hr => List.mem_cons_of_mem _ hr, .inl rfl, ?_⟩ ?_
    · exact Function.update_of_ne (h.root_ne hfresh).symm ..
    · rw [contentsIn_move h hk hfresh, editContents, hcontents, hentries]
      rfl
  cases op with
  | put key value =>
    exact .insert ht fun fresh t' hfresh hins => hmove fresh t' hfresh (t.entries_insert hins)
  | delete key =>
    refine .delete ht (fun fresh t' hfresh hdel => hmove fresh t' hfresh (t.entries_delete hdel))
      fun hdel => ?_
    -- the key is not there, and the tree stays where it is
    have hsame : Function.update slots k (some r) = slots := by
      rw [← hk, Function.update_eq_self]
    refine hQ r _ _ (hsame.symm ▸ h) (.refl origin l) ?_
    have herase : OrdMap.erase key t.entries = t.entries :=
      OrdMap.erase_of_forall_ne (TreeState.erase_of_delete_none hdel)
    rw [hsame, editContents, hcontents, Option.map_some, Op.on, herase, ← hcontents,
      Function.update_eq_self]

end Rules

end Edb.Catalog.TreeJob
