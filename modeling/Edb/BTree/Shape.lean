import Edb.BTree.Tree

/-!
# Trees as data

A subtree of height `h` as an inductive value, each node labelled with `ι`: with page ids as
labels it is a tree in the pager (`Tree Nat`), without labels it is the shape the algorithms
work on (`Shape`). Height is an index, so uniform leaf depth holds by construction.

`WF` is the structural invariant of a subtree responsible for the key range `[lo, hi)`. It is
built on `Pre`, the ordering part, which an overfull or emptied node still satisfies; `Ordered`
leaves out the limits on sizes too, and is all that searching relies on. The separators of an
internal node form a `Chain` of ranges; the chain lemmas say how a run of adjacent children can
be replaced (`Chain.segment`).
-/

namespace Edb.BTree

open Edb.Lib

abbrev Entry := Bytes × Bytes

/-- A leaf with its label. -/
structure LeafNode (ι : Type) where
  label : ι
  entries : List Entry

/-- An internal node over children of type `C`, with its label. -/
structure InnerNode (ι C : Type) where
  label : ι
  keys : List Bytes
  children : List C

/-- A subtree of height `h` with nodes labelled by `ι`. -/
def Tree (ι : Type) : Nat → Type
  | 0 => LeafNode ι
  | h + 1 => InnerNode ι (Tree ι h)

/-- A tree without page ids. -/
abbrev Shape := Tree Unit

namespace Tree

variable {ι : Type} {h : Nat}

def leaf (label : ι) (entries : List Entry) : Tree ι 0 := LeafNode.mk label entries

def node (label : ι) (keys : List Bytes) (children : List (Tree ι h)) : Tree ι (h + 1) :=
  InnerNode.mk label keys children

theorem exists_leaf (t : Tree ι 0) : ∃ i es, t = leaf i es :=
  ⟨LeafNode.label t, LeafNode.entries t, rfl⟩

theorem exists_node (t : Tree ι (h + 1)) : ∃ i ks cs, t = node i ks cs :=
  ⟨InnerNode.label t, InnerNode.keys t, InnerNode.children t, rfl⟩

def label : {h : Nat} → Tree ι h → ι
  | 0, t => LeafNode.label t
  | _ + 1, t => InnerNode.label t

/-- The bindings in left-to-right order. -/
def entries : {h : Nat} → Tree ι h → List Entry
  | 0, t => LeafNode.entries t
  | _ + 1, t => (InnerNode.children t).flatMap entries

/-- All labels, root first. -/
def labels : {h : Nat} → Tree ι h → List ι
  | 0, t => [LeafNode.label t]
  | _ + 1, t => InnerNode.label t :: (InnerNode.children t).flatMap labels

/-- Forget the labels. -/
def erase : {h : Nat} → Tree ι h → Shape h
  | 0, t => leaf () (LeafNode.entries t)
  | _ + 1, t => node () (InnerNode.keys t) ((InnerNode.children t).map erase)

/-- The sizes of the root's cells. -/
def cells : {h : Nat} → Tree ι h → List Nat
  | 0, t => (LeafNode.entries t).map (fun e => Node.leafCell e.1 e.2)
  | _ + 1, t => (InnerNode.keys t).map Node.internalCell

def headerLen : {h : Nat} → Tree ι h → Nat
  | 0, _ => hdrLeaf
  | _ + 1, _ => hdrInternal

/-- The encoded length of the root node. -/
def size (t : Tree ι h) : Nat := t.headerLen + t.cells.sum

/-- The root holds at least one key. -/
def Full : {h : Nat} → Tree ι h → Prop
  | 0, t => LeafNode.entries t ≠ []
  | _ + 1, t => InnerNode.keys t ≠ []

section Equations

variable (i : ι) (es : List Entry) (ks : List Bytes) (cs : List (Tree ι h))

@[simp] theorem label_leaf : (leaf i es).label = i := rfl
@[simp] theorem label_node : (node i ks cs).label = i := rfl
@[simp] theorem entries_leaf : (leaf i es).entries = es := rfl
@[simp] theorem entries_node : (node i ks cs).entries = cs.flatMap entries := rfl
@[simp] theorem labels_leaf : (leaf i es).labels = [i] := rfl
@[simp] theorem labels_node : (node i ks cs).labels = i :: cs.flatMap labels := rfl
@[simp] theorem erase_leaf : (leaf i es).erase = leaf () es := rfl
@[simp] theorem erase_node : (node i ks cs).erase = node () ks (cs.map erase) := rfl
@[simp] theorem cells_leaf :
    (leaf i es).cells = es.map (fun e => Node.leafCell e.1 e.2) := rfl
@[simp] theorem cells_node : (node i ks cs).cells = ks.map Node.internalCell := rfl
@[simp] theorem headerLen_leaf : (leaf i es).headerLen = hdrLeaf := rfl
@[simp] theorem headerLen_node : (node i ks cs).headerLen = hdrInternal := rfl
@[simp] theorem full_leaf : (leaf i es).Full ↔ es ≠ [] := Iff.rfl
@[simp] theorem full_node : (node i ks cs).Full ↔ ks ≠ [] := Iff.rfl

end Equations

@[simp] theorem cells_erase : (t : Tree ι h) → t.erase.cells = t.cells := by
  intro t
  cases h <;> rfl

@[simp] theorem headerLen_erase (t : Tree ι h) : t.erase.headerLen = t.headerLen := by
  cases h <;> rfl

@[simp] theorem size_erase (t : Tree ι h) : t.erase.size = t.size := by
  simp [size]

theorem full_erase (t : Tree ι h) : t.erase.Full ↔ t.Full := by
  cases h <;> exact Iff.rfl

@[simp] theorem entries_erase (t : Tree ι h) : t.erase.entries = t.entries := by
  induction h with
  | zero => rfl
  | succ h ih =>
      obtain ⟨i, ks, cs, rfl⟩ := t.exists_node
      rw [erase_node, entries_node, entries_node, List.flatMap_map]
      exact List.flatMap_congr fun c _ => ih c

end Tree

/-! ## Key ranges -/

/-- `k` lies in the half-open range `[lo, hi)`, an absent bound being infinite. -/
def InRange (lo hi : Option Bytes) (k : Bytes) : Prop := (∀ l ∈ lo, l ≤ k) ∧ ∀ u ∈ hi, k < u

/-- `k` separates the range `[lo, hi)`: it lies strictly above its lower bound. -/
def SepIn (lo hi : Option Bytes) (k : Bytes) : Prop := (∀ l ∈ lo, l < k) ∧ ∀ u ∈ hi, k < u

theorem SepIn.inRange {lo hi : Option Bytes} {k : Bytes} (h : SepIn lo hi k) : InRange lo hi k :=
  ⟨fun l hl => le_of_lt (h.1 l hl), h.2⟩

theorem InRange.widen_lo {lo hi : Option Bytes} {s k : Bytes} (hs : SepIn lo hi s)
    (h : InRange (some s) hi k) : InRange lo hi k :=
  ⟨fun l hl => le_trans (le_of_lt (hs.1 l hl)) (h.1 s rfl), h.2⟩

theorem InRange.widen_hi {lo hi : Option Bytes} {s k : Bytes} (hs : SepIn lo hi s)
    (h : InRange lo (some s) k) : InRange lo hi k :=
  ⟨h.1, fun u hu => lt_trans (h.2 s rfl) (hs.2 u hu)⟩

theorem SepIn.widen_lo {lo hi : Option Bytes} {s k : Bytes} (hs : SepIn lo hi s)
    (h : SepIn (some s) hi k) : SepIn lo hi k :=
  ⟨fun l hl => lt_trans (hs.1 l hl) (h.1 s rfl), h.2⟩

theorem SepIn.widen_hi {lo hi : Option Bytes} {s k : Bytes} (hs : SepIn lo hi s)
    (h : SepIn lo (some s) k) : SepIn lo hi k :=
  ⟨h.1, fun u hu => lt_trans (h.2 s rfl) (hs.2 u hu)⟩

/-! ## Chains of ranges -/

/-- Child `i` satisfies `P` on `[b_i, b_{i+1})`, where the `b` are `lo`, the separators, `hi`. -/
def Chain {α : Type} (P : Option Bytes → Option Bytes → α → Prop) :
    Option Bytes → List Bytes → List α → Option Bytes → Prop
  | lo, [], [c], hi => P lo hi c
  | lo, k :: ks, c :: cs, hi => SepIn lo hi k ∧ P lo (some k) c ∧ Chain P (some k) ks cs hi
  | _, _, _, _ => False

namespace Chain

variable {α : Type} {P Q : Option Bytes → Option Bytes → α → Prop}
variable {lo hi : Option Bytes} {ks : List Bytes} {cs : List α}

theorem single {c : α} : Chain P lo [] [c] hi ↔ P lo hi c := Iff.rfl

theorem cons {k : Bytes} {c : α} : Chain P lo (k :: ks) (c :: cs) hi ↔
    SepIn lo hi k ∧ P lo (some k) c ∧ Chain P (some k) ks cs hi := by
  cases ks <;> cases cs <;> exact Iff.rfl

theorem pair {k : Bytes} {c d : α} : Chain P lo [k] [c, d] hi ↔
    SepIn lo hi k ∧ P lo (some k) c ∧ P (some k) hi d := Iff.rfl

theorem length (h : Chain P lo ks cs hi) : cs.length = ks.length + 1 := by
  induction ks generalizing lo cs with
  | nil =>
      match cs, h with
      | [_], _ => rfl
  | cons k ks ih =>
      match cs, h with
      | c :: cs, h => simp [ih (cons.mp h).2.2]

theorem mono (hPQ : ∀ a b c, c ∈ cs → P a b c → Q a b c) (h : Chain P lo ks cs hi) :
    Chain Q lo ks cs hi := by
  induction ks generalizing lo cs with
  | nil =>
      match cs, h with
      | [c], h => exact hPQ lo hi c (List.mem_singleton.mpr rfl) h
  | cons k ks ih =>
      match cs, h with
      | c :: cs, h =>
          obtain ⟨hs, hc, hr⟩ := cons.mp h
          exact cons.mpr ⟨hs, hPQ _ _ c (List.mem_cons_self ..) hc,
            ih (fun a b c' hc' => hPQ a b c' (List.mem_cons_of_mem _ hc')) hr⟩

theorem map {β : Type} {f : α → β} {Q : Option Bytes → Option Bytes → β → Prop} :
    Chain Q lo ks (cs.map f) hi ↔ Chain (fun a b c => Q a b (f c)) lo ks cs hi := by
  induction ks generalizing lo cs with
  | nil =>
      match cs with
      | [] => exact Iff.rfl
      | [_] => exact Iff.rfl
      | _ :: _ :: _ => exact Iff.rfl
  | cons k ks ih =>
      cases cs with
      | nil => exact Iff.rfl
      | cons c cs => rw [List.map_cons, cons, cons, ih]

theorem seps (h : Chain P lo ks cs hi) : ∀ k ∈ ks, SepIn lo hi k := by
  induction ks generalizing lo cs with
  | nil => intro k hk; cases hk
  | cons k ks ih =>
      match cs, h with
      | c :: cs, h =>
          obtain ⟨hs, -, hr⟩ := cons.mp h
          intro k' hk'
          rcases List.mem_cons.mp hk' with rfl | hk'
          · exact hs
          · exact hs.widen_lo (ih hr k' hk')

theorem ascending (h : Chain P lo ks cs hi) : ks.Pairwise (· < ·) := by
  induction ks generalizing lo cs with
  | nil => exact List.Pairwise.nil
  | cons k ks ih =>
      match cs, h with
      | c :: cs, h =>
          obtain ⟨-, -, hr⟩ := cons.mp h
          exact List.pairwise_cons.mpr ⟨fun k' hk' => (seps hr k' hk').1 k rfl, ih hr⟩

/-- A chain splits at any separator. -/
theorem append {k : Bytes} {ks' : List Bytes} {cs' : List α} (hlen : cs.length = ks.length + 1) :
    Chain P lo (ks ++ k :: ks') (cs ++ cs') hi ↔
      Chain P lo ks cs (some k) ∧ SepIn lo hi k ∧ Chain P (some k) ks' cs' hi := by
  induction ks generalizing lo cs with
  | nil =>
      match cs, hlen with
      | [c], _ =>
          rw [List.nil_append, List.singleton_append, cons, single]
          exact ⟨fun ⟨a, b, c⟩ => ⟨b, a, c⟩, fun ⟨a, b, c⟩ => ⟨b, a, c⟩⟩
  | cons k₀ ks ih =>
      match cs, hlen with
      | c :: cs, hlen =>
          rw [List.cons_append, List.cons_append, cons, cons, ih (by simpa using hlen)]
          constructor
          · rintro ⟨h₀, hc, hl, hk, hr⟩
            exact ⟨⟨⟨h₀.1, fun u hu => by cases hu; exact hk.1 k₀ rfl⟩, hc, hl⟩, h₀.widen_lo hk, hr⟩
          · rintro ⟨⟨h₀, hc, hl⟩, hk, hr⟩
            have hk₀ : k₀ < k := h₀.2 k rfl
            refine ⟨hk.widen_hi h₀, hc, hl, ⟨fun l hl => ?_, hk.2⟩, hr⟩
            cases hl
            exact hk₀

/-- Every child has a lower bound: the chain's own or a separator. -/
theorem lower {K : List Bytes} {k : Bytes} (hk : k ∈ K) (hks : ∀ k' ∈ ks, k' ∈ K)
    (h : Chain P (some k) ks cs hi) : ∀ c ∈ cs, ∃ k' ∈ K, ∃ b, P (some k') b c := by
  induction ks generalizing k cs with
  | nil =>
      match cs, h with
      | [c], h =>
          intro c' hc'
          rw [List.mem_singleton.mp hc']
          exact ⟨k, hk, hi, h⟩
  | cons k₁ ks ih =>
      match cs, h with
      | c :: cs, h =>
          obtain ⟨-, hc, hr⟩ := cons.mp h
          intro c' hc'
          rcases List.mem_cons.mp hc' with rfl | hc'
          · exact ⟨k, hk, _, hc⟩
          · exact ih (hks k₁ (List.mem_cons_self ..))
              (fun k' hk' => hks k' (List.mem_cons_of_mem _ hk')) hr c' hc'

/-- A run of adjacent children covers the range between the separators around it, the children
before it lie below separators on its left, those after it above separators on its right, and
any chain over the same range can take its place. -/
theorem segment {ks₁ ks₂ ks₃ : List Bytes} {cs₁ cs₂ cs₃ : List α}
    (h₁ : cs₁.length = ks₁.length) (h₂ : cs₂.length = ks₂.length + 1)
    (h : Chain P lo (ks₁ ++ ks₂ ++ ks₃) (cs₁ ++ cs₂ ++ cs₃) hi) :
    Chain P (ks₁.getLast?.or lo) ks₂ cs₂ (ks₃.head?.or hi) ∧
      (∀ c ∈ cs₁, ∃ a, ∃ k ∈ ks₁, P a (some k) c) ∧
      (∀ c ∈ cs₃, ∃ k ∈ ks₃, ∃ b, P (some k) b c) ∧
      ∀ ts ms, Chain P (ks₁.getLast?.or lo) ts ms (ks₃.head?.or hi) →
        Chain P lo (ks₁ ++ ts ++ ks₃) (cs₁ ++ ms ++ cs₃) hi := by
  induction ks₁ generalizing lo cs₁ with
  | nil =>
      match cs₁, h₁ with
      | [], _ =>
          simp only [List.nil_append, List.getLast?_nil, Option.none_or] at h ⊢
          cases ks₃ with
          | nil =>
              have hlen := h.length
              rw [List.append_nil] at hlen
              -- no separator is left behind the middle, so no child is either
              have hnil : cs₃ = [] := by
                rw [List.length_append] at hlen
                exact List.length_eq_zero_iff.mp (by omega)
              subst hnil
              simp only [List.append_nil, List.head?_nil, Option.none_or] at h ⊢
              exact ⟨h, (by simp), (by simp), fun ts ms hm => hm⟩
          | cons k ks₃ =>
              obtain ⟨hm, hk, hr⟩ := (append h₂).mp h
              simp only [List.head?_cons, Option.some_or]
              exact ⟨hm, (by simp), hr.lower (by simp) (fun k' hk' => List.mem_cons_of_mem _ hk'),
                fun ts ms hts => (append hts.length).mpr ⟨hts, hk, hr⟩⟩
  | cons k ks₁ ih =>
      match cs₁, h₁ with
      | c :: cs₁, h₁ =>
          simp only [List.cons_append] at h
          obtain ⟨hs, hc, hr⟩ := cons.mp h
          obtain ⟨hm, hbefore, hafter, hctx⟩ := ih (by simpa using h₁) hr
          have hlast : (k :: ks₁).getLast?.or lo = ks₁.getLast?.or (some k) := by
            cases ks₁ with
            | nil => rfl
            | cons k₁ ks₁ => simp [List.getLast?_cons]
          rw [hlast]
          refine ⟨hm, ?_, hafter, fun ts ms hts => cons.mpr ⟨hs, hc, hctx ts ms hts⟩⟩
          intro c' hc'
          rcases List.mem_cons.mp hc' with rfl | hc'
          · exact ⟨lo, k, List.mem_cons_self .., hc⟩
          · obtain ⟨a, k', hk', hP⟩ := hbefore c' hc'
            exact ⟨a, k', List.mem_cons_of_mem _ hk', hP⟩

/-- Every child of a chain has its bounds. -/
theorem exists_bounds (h : Chain P lo ks cs hi) {c : α} (hc : c ∈ cs) : ∃ a b, P a b c := by
  induction ks generalizing lo cs with
  | nil =>
      match cs, h with
      | [c'], h =>
          rw [List.mem_singleton.mp hc]
          exact ⟨lo, hi, h⟩
  | cons k ks ih =>
      match cs, h with
      | c' :: cs, h =>
          obtain ⟨-, hc', hr⟩ := cons.mp h
          rcases List.mem_cons.mp hc with rfl | hc
          · exact ⟨_, _, hc'⟩
          · exact ih hr hc

/-- The range of a child lies in the range of the chain. -/
theorem exists_nested (h : Chain P lo ks cs hi) {c : α} (hc : c ∈ cs) :
    ∃ a b, P a b c ∧ ∀ k, InRange a b k → InRange lo hi k := by
  induction ks generalizing lo cs with
  | nil =>
      match cs, h with
      | [c'], h =>
          rw [List.mem_singleton.mp hc]
          exact ⟨lo, hi, h, fun _ hk => hk⟩
  | cons k ks ih =>
      match cs, h with
      | c' :: cs, h =>
          obtain ⟨hs, hc', hr⟩ := cons.mp h
          rcases List.mem_cons.mp hc with rfl | hc
          · exact ⟨_, _, hc', fun _ hk => hk.widen_hi hs⟩
          · obtain ⟨a, b, hP, hnested⟩ := ih hr hc
            exact ⟨a, b, hP, fun _ hk => (hnested _ hk).widen_lo hs⟩

/-- A chain taken apart around the child at an index. -/
theorem at_index (h : Chain P lo ks cs hi) (ci : Nat) (hci : ci ≤ ks.length) :
    ∃ ks₁ ks₃ cs₁ c cs₃, ks = ks₁ ++ ks₃ ∧ cs = cs₁ ++ [c] ++ cs₃ ∧
      ks₁.length = ci ∧ cs₁.length = ci := by
  have hlen := h.length
  refine ⟨ks.take ci, ks.drop ci, cs.take ci, cs.get ⟨ci, by omega⟩, cs.drop (ci + 1),
    (List.take_append_drop ..).symm, ?_, List.length_take_of_le hci,
    List.length_take_of_le (by omega)⟩
  rw [List.append_assoc, List.singleton_append, List.get_eq_getElem,
    ← List.drop_eq_getElem_cons, List.take_append_drop]

/-- The bindings below a chain of children are sorted and lie in the chain's range. -/
theorem flatMap_sorted {f : α → List Entry}
    (hf : ∀ a b c, P a b c → OrdMap.Sorted (f c) ∧ ∀ e ∈ f c, InRange a b e.1)
    (h : Chain P lo ks cs hi) :
    OrdMap.Sorted (cs.flatMap f) ∧ ∀ e ∈ cs.flatMap f, InRange lo hi e.1 := by
  induction ks generalizing lo cs with
  | nil =>
      match cs, h with
      | [c], h =>
          rw [List.flatMap_singleton]
          exact hf lo hi c h
  | cons k ks ih =>
      match cs, h with
      | c :: cs, h =>
          obtain ⟨hk, hc, hr⟩ := cons.mp h
          obtain ⟨hs₁, hr₁⟩ := hf _ _ _ hc
          obtain ⟨hs₂, hr₂⟩ := ih hr
          rw [List.flatMap_cons]
          refine ⟨OrdMap.sorted_append.mpr ⟨hs₁, hs₂, fun a ha b hb => ?_⟩, fun e he => ?_⟩
          · exact lt_of_lt_of_le ((hr₁ a ha).2 k rfl) ((hr₂ b hb).1 k rfl)
          · rcases List.mem_append.mp he with he | he
            · exact (hr₁ e he).widen_hi hk
            · exact (hr₂ e he).widen_lo hk

end Chain

/-! ## The structural invariant -/

/-- The entry passes `checkEntry`: it fits as a leaf cell, and its key as a separator. -/
def EntryOk (e : Entry) : Prop :=
  Node.leafCell e.1 e.2 ≤ maxCell ∧ Node.internalCell e.1 ≤ maxCell

theorem checkEntry_eq_ok {key value : Bytes} :
    checkEntry key value = .ok () ↔ EntryOk (key, value) := by
  unfold checkEntry EntryOk Node.leafCell Node.internalCell
  simp only
  split
  · simp only [reduceCtorEq, false_iff]
    omega
  · simp only [true_iff]
    omega

namespace Tree

variable {ι : Type} {h : Nat} {lo hi : Option Bytes}

/-- The subtree is ordered and covers `[lo, hi)`, every cell fits two to a node, and all nodes
below the root are within a page and hold a key. -/
def Pre : {h : Nat} → Option Bytes → Option Bytes → Tree ι h → Prop
  | 0, lo, hi, t => OrdMap.Sorted (LeafNode.entries t) ∧
      ∀ e ∈ LeafNode.entries t, InRange lo hi e.1 ∧ EntryOk e
  | _ + 1, lo, hi, t => (∀ k ∈ InnerNode.keys t, Node.internalCell k ≤ maxCell) ∧
      Chain (fun a b c => Pre a b c ∧ c.size ≤ cap ∧ c.Full)
        lo (InnerNode.keys t) (InnerNode.children t) hi

/-- The invariant of a subtree below the root. -/
structure WF (lo hi : Option Bytes) (t : Tree ι h) : Prop where
  pre : t.Pre lo hi
  size : t.size ≤ cap
  full : t.Full

/-- The invariant of a whole tree: only a root leaf may be empty. -/
structure RootWF (t : Tree ι h) : Prop where
  pre : t.Pre none none
  size : t.size ≤ cap
  full : h ≠ 0 → t.Full

theorem pre_leaf {i : ι} {es : List Entry} : (leaf i es).Pre lo hi ↔
    OrdMap.Sorted es ∧ ∀ e ∈ es, InRange lo hi e.1 ∧ EntryOk e := Iff.rfl

/-- A node is well formed when its separators fit and its children are between them. -/
theorem pre_node {i : ι} {ks : List Bytes} {cs : List (Tree ι h)} : (node i ks cs).Pre lo hi ↔
    (∀ k ∈ ks, Node.internalCell k ≤ maxCell) ∧ Chain WF lo ks cs hi := by
  have hwf : ∀ a b (c : Tree ι h), WF a b c ↔ Pre a b c ∧ c.size ≤ cap ∧ c.Full :=
    fun a b c => ⟨fun hc => ⟨hc.pre, hc.size, hc.full⟩, fun hc => ⟨hc.1, hc.2.1, hc.2.2⟩⟩
  change _ ∧ Chain _ lo ks cs hi ↔ _
  constructor
  · exact fun ⟨hk, hc⟩ => ⟨hk, hc.mono fun a b c _ hc => (hwf a b c).mpr hc⟩
  · exact fun ⟨hk, hc⟩ => ⟨hk, hc.mono fun a b c _ hc => (hwf a b c).mp hc⟩

/-- The entries of an ordered tree ascend within its bounds. -/
theorem Pre.entries_sorted {t : Tree ι h} (ht : t.Pre lo hi) :
    OrdMap.Sorted t.entries ∧ ∀ e ∈ t.entries, InRange lo hi e.1 := by
  induction h generalizing lo hi with
  | zero =>
      obtain ⟨i, es, rfl⟩ := t.exists_leaf
      exact ⟨ht.1, fun e he => (ht.2 e he).1⟩
  | succ h ih =>
      obtain ⟨i, ks, cs, rfl⟩ := t.exists_node
      exact (pre_node.mp ht).2.flatMap_sorted fun a b c hc => ih hc.pre

theorem Pre.cells_le {t : Tree ι h} (ht : t.Pre lo hi) : ∀ c ∈ t.cells, 0 < c ∧ c ≤ maxCell := by
  intro c hc
  cases h with
  | zero =>
      obtain ⟨i, es, rfl⟩ := t.exists_leaf
      obtain ⟨e, he, rfl⟩ := List.mem_map.mp hc
      exact ⟨by unfold Node.leafCell; omega, (ht.2 e he).2.1⟩
  | succ h =>
      obtain ⟨i, ks, cs, rfl⟩ := t.exists_node
      obtain ⟨k, hk, rfl⟩ := List.mem_map.mp hc
      exact ⟨by unfold Node.internalCell; omega, (pre_node.mp ht).1 k hk⟩

/-- Being well formed does not look at the labels. -/
theorem pre_erase {t : Tree ι h} : t.erase.Pre lo hi ↔ t.Pre lo hi := by
  induction h generalizing lo hi with
  | zero => exact Iff.rfl
  | succ h ih =>
      obtain ⟨i, ks, cs, rfl⟩ := t.exists_node
      rw [erase_node, pre_node, pre_node, Chain.map]
      have hwf : ∀ a b (c : Tree ι h), WF a b c.erase ↔ WF a b c := by
        intro a b c
        constructor
        · exact fun hc => ⟨ih.mp hc.pre, by simpa using hc.size, c.full_erase.mp hc.full⟩
        · exact fun hc => ⟨ih.mpr hc.pre, by simpa using hc.size, c.full_erase.mpr hc.full⟩
      constructor
      · exact fun ⟨hk, hc⟩ => ⟨hk, hc.mono fun a b c _ hc => (hwf a b c).mp hc⟩
      · exact fun ⟨hk, hc⟩ => ⟨hk, hc.mono fun a b c _ hc => (hwf a b c).mpr hc⟩

theorem wf_erase {t : Tree ι h} : t.erase.WF lo hi ↔ t.WF lo hi :=
  ⟨fun ht => ⟨pre_erase.mp ht.pre, by simpa using ht.size, t.full_erase.mp ht.full⟩,
    fun ht => ⟨pre_erase.mpr ht.pre, by simpa using ht.size, t.full_erase.mpr ht.full⟩⟩

theorem rootWF_erase {t : Tree ι h} : t.erase.RootWF ↔ t.RootWF :=
  ⟨fun ht => ⟨pre_erase.mp ht.pre, by simpa using ht.size, fun hh => t.full_erase.mp (ht.full hh)⟩,
    fun ht =>
      ⟨pre_erase.mpr ht.pre, by simpa using ht.size, fun hh => t.full_erase.mpr (ht.full hh)⟩⟩

theorem WF.rootWF {t : Tree ι h} (ht : t.WF none none) : t.RootWF :=
  ⟨ht.pre, ht.size, fun _ => ht.full⟩

/-- A node that is not underfull holds a key. -/
theorem full_of_size {t : Tree ι h} (hs : minFill ≤ t.size) : t.Full := by
  have hmin : minFill = 1020 := rfl
  cases h with
  | zero =>
      obtain ⟨i, es, rfl⟩ := t.exists_leaf
      rintro rfl
      simp [size, hdrLeaf, hmin] at hs
  | succ h =>
      obtain ⟨i, ks, cs, rfl⟩ := t.exists_node
      rintro rfl
      simp [size, hdrInternal, hmin] at hs

/-! ## Search order -/

/-- The bindings are sorted and lie in `[lo, hi)`, the separators of a node split its range among
its children, and every node below the root holds a key. -/
def Ordered : {h : Nat} → Option Bytes → Option Bytes → Tree ι h → Prop
  | 0, lo, hi, t => OrdMap.Sorted (LeafNode.entries t) ∧
      ∀ e ∈ LeafNode.entries t, InRange lo hi e.1
  | _ + 1, lo, hi, t => Chain (fun a b c => Ordered a b c ∧ c.Full)
      lo (InnerNode.keys t) (InnerNode.children t) hi

/-- The order of a subtree below the root. -/
structure Ranged (lo hi : Option Bytes) (t : Tree ι h) : Prop where
  ordered : t.Ordered lo hi
  full : t.Full

theorem ordered_leaf {i : ι} {es : List Entry} : (leaf i es).Ordered lo hi ↔
    OrdMap.Sorted es ∧ ∀ e ∈ es, InRange lo hi e.1 := Iff.rfl

theorem ordered_node {i : ι} {ks : List Bytes} {cs : List (Tree ι h)} :
    (node i ks cs).Ordered lo hi ↔ Chain Ranged lo ks cs hi :=
  ⟨fun hc => hc.mono fun _ _ _ _ hc => ⟨hc.1, hc.2⟩,
    fun hc => hc.mono fun _ _ _ _ hc => ⟨hc.ordered, hc.full⟩⟩

theorem Ordered.entries_sorted {t : Tree ι h} (ht : t.Ordered lo hi) :
    OrdMap.Sorted t.entries ∧ ∀ e ∈ t.entries, InRange lo hi e.1 := by
  induction h generalizing lo hi with
  | zero =>
      obtain ⟨i, es, rfl⟩ := t.exists_leaf
      exact ht
  | succ h ih =>
      obtain ⟨i, ks, cs, rfl⟩ := t.exists_node
      exact (ordered_node.mp ht).flatMap_sorted fun a b c hc => ih hc.ordered

/-- A tree whose cells fit is ordered. -/
theorem Pre.ordered {t : Tree ι h} (ht : t.Pre lo hi) : t.Ordered lo hi := by
  induction h generalizing lo hi with
  | zero =>
      obtain ⟨i, es, rfl⟩ := t.exists_leaf
      exact ⟨(pre_leaf.mp ht).1, fun e he => ((pre_leaf.mp ht).2 e he).1⟩
  | succ h ih =>
      obtain ⟨i, ks, cs, rfl⟩ := t.exists_node
      exact ordered_node.mpr ((pre_node.mp ht).2.mono fun _ _ _ _ hc => ⟨ih hc.pre, hc.full⟩)

theorem WF.ranged {t : Tree ι h} (ht : t.WF lo hi) : t.Ranged lo hi := ⟨ht.pre.ordered, ht.full⟩

/-! ## Routing -/

/-- The separators before the child a key is routed to are at most the key, those after it are
above it. -/
theorem routeIndex_split {ks ks₁ ks₃ : List Bytes} {key : Bytes} (hs : ks.Pairwise (· < ·))
    (hks : ks = ks₁ ++ ks₃) (hlen : ks₁.length = routeIndex ks key) :
    (∀ k ∈ ks₁, k ≤ key) ∧ ∀ k ∈ ks₃, key < k := by
  have h₁ : ks₁ = ks.take (routeIndex ks key) := by rw [hks, ← hks, ← hlen, hks, List.take_left]
  have h₃ : ks₃ = ks.drop (routeIndex ks key) := by rw [hks, ← hks, ← hlen, hks, List.drop_left]
  constructor
  · intro k hk
    rw [h₁] at hk
    have := OrdMap.lt_of_mem_take_partitionPoint (p := fun k => decide (k ≤ key)) hk
    exact of_decide_eq_true this
  · intro k hk
    rw [h₃] at hk
    have := OrdMap.not_of_mem_drop_partitionPoint hs
      (fun a b hab hb => decide_eq_true (le_trans (le_of_lt hab) (of_decide_eq_true hb))) hk
    exact not_le.mp (of_decide_eq_false this)

/-- The child a key is routed to, taken out of the chain of children: it covers the key, and
the bindings around it lie on their sides of the key. -/
theorem exists_routed_of {P : Option Bytes → Option Bytes → Tree ι h → Prop}
    (hP : ∀ a b c, P a b c → ∀ e ∈ c.entries, InRange a b e.1)
    {ks : List Bytes} {cs : List (Tree ι h)} {key : Bytes}
    (hc : Chain P lo ks cs hi) (hkey : InRange lo hi key) :
    ∃ ks₁ ks₃ cs₁ c cs₃ a b, ks = ks₁ ++ ks₃ ∧ cs = cs₁ ++ [c] ++ cs₃ ∧
      ks₁.length = routeIndex ks key ∧ cs₁.length = routeIndex ks key ∧
      P a b c ∧ InRange a b key ∧
      (∀ e ∈ cs₁.flatMap entries, e.1 < key) ∧ (∀ e ∈ cs₃.flatMap entries, key < e.1) ∧
      ∀ ts ms, Chain P a ts ms b → Chain P lo (ks₁ ++ ts ++ ks₃) (cs₁ ++ ms ++ cs₃) hi := by
  obtain ⟨ks₁, ks₃, cs₁, c, cs₃, hks, hcs, hl₁, hl₂⟩ :=
    hc.at_index (routeIndex ks key) (OrdMap.partitionPoint_le _ _)
  -- the separators before the index are at most the key, the others above it
  obtain ⟨hle, hlt⟩ := routeIndex_split hc.ascending hks hl₁
  have hc' := hc
  rw [hks, hcs, ← List.append_nil ks₁] at hc'
  -- the child's bounds are the separators on its two sides, or the outer ones
  obtain ⟨hmid, hbefore, hafter, hctx⟩ := Chain.segment (hl₂.trans hl₁.symm) rfl hc'
  refine ⟨ks₁, ks₃, cs₁, c, cs₃, _, _, hks, hcs, hl₁, hl₂, Chain.single.mp hmid, ⟨?_, ?_⟩, ?_, ?_,
    hctx⟩
  · intro l hl
    cases hlast : ks₁.getLast? with
    | none =>
        rw [hlast, Option.none_or] at hl
        exact hkey.1 l hl
    | some k =>
        rw [hlast, Option.some_or] at hl
        cases hl
        exact hle l (List.mem_of_getLast? hlast)
  · intro u hu
    cases hhead : ks₃.head? with
    | none =>
        rw [hhead, Option.none_or] at hu
        exact hkey.2 u hu
    | some k =>
        rw [hhead, Option.some_or] at hu
        cases hu
        exact hlt u (List.mem_of_head? hhead)
  · intro e he
    obtain ⟨c', hc', he⟩ := List.mem_flatMap.mp he
    obtain ⟨a, k, hk, hwf⟩ := hbefore c' hc'
    exact lt_of_lt_of_le ((hP _ _ _ hwf e he).2 k rfl) (hle k hk)
  · intro e he
    obtain ⟨c', hc', he⟩ := List.mem_flatMap.mp he
    obtain ⟨k, hk, b, hwf⟩ := hafter c' hc'
    exact lt_of_lt_of_le (hlt k hk) ((hP _ _ _ hwf e he).1 k rfl)

/-- The routed child is the one whose bounds hold the key: what is before it is below, what is
after it above. -/
theorem exists_routed {ks : List Bytes} {cs : List (Tree ι h)} {key : Bytes}
    (hc : Chain WF lo ks cs hi) (hkey : InRange lo hi key) :
    ∃ ks₁ ks₃ cs₁ c cs₃ a b, ks = ks₁ ++ ks₃ ∧ cs = cs₁ ++ [c] ++ cs₃ ∧
      ks₁.length = routeIndex ks key ∧ cs₁.length = routeIndex ks key ∧
      WF a b c ∧ InRange a b key ∧
      (∀ e ∈ cs₁.flatMap entries, e.1 < key) ∧ (∀ e ∈ cs₃.flatMap entries, key < e.1) ∧
      ∀ ts ms, Chain WF a ts ms b → Chain WF lo (ks₁ ++ ts ++ ks₃) (cs₁ ++ ms ++ cs₃) hi :=
  exists_routed_of (fun _ _ _ hwf => hwf.pre.entries_sorted.2) hc hkey

end Tree

end Edb.BTree
