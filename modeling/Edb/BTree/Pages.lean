import Edb.BTree.Edit
import Edb.Lib.Simulation
import Edb.Pager.Invariant

/-!
# Trees in the pager

`Held p t`: every node of `t` is the content of the page it is labelled with, and these pages
belong to the caller. The tree operations over pages simulate the algorithms on shapes
(`insert_sim`, `delete_sim`): the shape of the result, success and the error are those of the
shape algorithm, and the pages are conserved: what the new tree uses and what the operation
reports as freed is what the old tree used and what was allocated.
-/

namespace Edb.BTree

open Edb.Lib
open BTree.Tree (leaf node WF RootWF Pre)

/-! ## Nodes of a labelled tree -/

namespace Ins

variable {α β : Type}

def map (f : α → β) : Ins α → Ins β
  | .updated a => .updated (f a)
  | .split l s r => .split (f l) s (f r)

/-- The subtrees an insert returned. -/
def parts : Ins α → List α
  | .updated a => [a]
  | .split l _ r => [l, r]

end Ins

def Del.map {α β : Type} (f : α → β) : Del α → Del β
  | .unchanged => .unchanged
  | .done a u => .done (f a) u

namespace Tree

variable {h : Nat} {lo hi : Option Bytes}

/-- The node the root of a tree is stored as. -/
def toNode : {h : Nat} → Tree Nat h → Node
  | 0, t => .leaf ((LeafNode.entries t).map Prod.fst) ((LeafNode.entries t).map Prod.snd)
  | _ + 1, t => .internal (InnerNode.keys t) ((InnerNode.children t).map label)

@[simp] theorem toNode_leaf (i : Nat) (es : List Entry) :
    (leaf i es).toNode = .leaf (es.map Prod.fst) (es.map Prod.snd) := rfl

@[simp] theorem toNode_node (i : Nat) (ks : List Bytes) (cs : List (Tree Nat h)) :
    (node i ks cs).toNode = .internal ks (cs.map label) := rfl

/-- Give the root another label. -/
def relabel {ι : Type} (i : ι) : {h : Nat} → Tree ι h → Tree ι h
  | 0, t => leaf i (LeafNode.entries t)
  | _ + 1, t => node i (InnerNode.keys t) (InnerNode.children t)

/-- The labels below the root. -/
def kids {ι : Type} : {h : Nat} → Tree ι h → List ι
  | 0, _ => []
  | _ + 1, t => (InnerNode.children t).flatMap labels

@[simp] theorem kids_leaf {ι : Type} (i : ι) (es : List Entry) : (leaf i es).kids = [] := rfl

@[simp] theorem kids_node {ι : Type} (i : ι) (ks : List Bytes) (cs : List (Tree ι h)) :
    (node i ks cs).kids = cs.flatMap labels := rfl

section Relabel

variable {ι : Type} (i : ι) (t : Tree ι h)

@[simp] theorem label_relabel : (t.relabel i).label = i := by cases h <;> rfl

@[simp] theorem erase_relabel : (t.relabel i).erase = t.erase := by cases h <;> rfl

@[simp] theorem kids_relabel : (t.relabel i).kids = t.kids := by cases h <;> rfl

theorem labels_eq : t.labels = t.label :: t.kids := by cases h <;> rfl

end Relabel

@[simp] theorem toNode_relabel (i : Nat) (t : Tree Nat h) : (t.relabel i).toNode = t.toNode := by
  cases h <;> rfl

theorem cellLens_toNode (t : Tree Nat h) : t.toNode.cellLens = t.cells := by
  cases h with
  | zero =>
      obtain ⟨i, es, rfl⟩ := t.exists_leaf
      rw [toNode_leaf, cells_leaf, Node.cellLens, List.zipWith_map, List.zipWith_self]
  | succ h => rfl

theorem keyCount_toNode (t : Tree Nat h) : t.toNode.keyCount = t.cells.length := by
  cases h with
  | zero =>
      obtain ⟨i, es, rfl⟩ := t.exists_leaf
      simp [Node.keyCount]
  | succ h =>
      obtain ⟨i, ks, cs, rfl⟩ := t.exists_node
      simp [Node.keyCount]

theorem headerLen_toNode (t : Tree Nat h) : t.toNode.headerLen = t.headerLen := by
  cases h <;> rfl

theorem encodedLen_toNode (t : Tree Nat h) : t.toNode.encodedLen = t.size := by
  rw [Node.encodedLen, headerLen_toNode, cellLens_toNode]
  rfl

theorem splitAt_toNode (t : Tree Nat h) : t.toNode.splitAt = t.splitAt := by
  have hint : t.toNode.isInternal = decide (h ≠ 0) := by cases h <;> rfl
  rw [Node.splitAt, splitAt, headerLen_toNode, cellLens_toNode, keyCount_toNode, hint]

/-- Splitting a stored node is splitting the tree. -/
theorem split_toNode (t : Tree Nat h) :
    t.toNode.split = (t.split.1.toNode, t.split.2.1, t.split.2.2.toNode) := by
  have hsplit := t.splitAt_toNode
  cases h with
  | zero =>
      obtain ⟨i, es, rfl⟩ := t.exists_leaf
      rw [split_leaf, ← hsplit]
      simp [Node.split, List.map_take, List.map_drop]
  | succ h =>
      obtain ⟨i, ks, cs, rfl⟩ := t.exists_node
      rw [split_node, ← hsplit]
      simp [Node.split, List.map_take, List.map_drop]

/-- Merging two pages is merging the two trees at their roots. -/
theorem merge_toNode (l : Tree Nat h) (s : Bytes) (r : Tree Nat h) :
    Node.merge l.toNode s r.toNode = (merge l s r).toNode := by
  cases h with
  | zero =>
      obtain ⟨i, es, rfl⟩ := l.exists_leaf
      obtain ⟨j, es', rfl⟩ := r.exists_leaf
      simp [Node.merge]
  | succ h =>
      obtain ⟨i, ks, cs, rfl⟩ := l.exists_node
      obtain ⟨j, ks', cs', rfl⟩ := r.exists_node
      simp [Node.merge]

theorem splitAt_erase {ι : Type} (t : Tree ι h) : t.erase.splitAt = t.splitAt := by
  rw [splitAt, splitAt, headerLen_erase, cells_erase]

/-- Splitting does not look at labels. -/
theorem split_erase {ι : Type} (t : Tree ι h) :
    t.erase.split = (t.split.1.erase, t.split.2.1, t.split.2.2.erase) := by
  have hsplit := t.splitAt_erase
  cases h with
  | zero =>
      obtain ⟨i, es, rfl⟩ := t.exists_leaf
      rw [split_leaf, ← hsplit]
      rfl
  | succ h =>
      obtain ⟨i, ks, cs, rfl⟩ := t.exists_node
      rw [split_node, ← hsplit, erase_node, split_node]
      simp [List.map_take, List.map_drop]

theorem merge_erase {ι : Type} (l : Tree ι h) (s : Bytes) (r : Tree ι h) :
    merge l.erase s r.erase = (merge l s r).erase := by
  cases h with
  | zero => rfl
  | succ h =>
      obtain ⟨i, ks, cs, rfl⟩ := l.exists_node
      obtain ⟨j, ks', cs', rfl⟩ := r.exists_node
      simp

/-- The children of the two halves are those of the whole. -/
theorem kids_split {ι : Type} (t : Tree ι h) : t.split.1.kids ++ t.split.2.2.kids = t.kids := by
  cases h with
  | zero => rfl
  | succ h =>
      obtain ⟨i, ks, cs, rfl⟩ := t.exists_node
      rw [split_node]
      change (cs.take _).flatMap labels ++ (cs.drop _).flatMap labels = cs.flatMap labels
      rw [← List.flatMap_append, List.take_append_drop]

theorem kids_merge {ι : Type} (l : Tree ι h) (s : Bytes) (r : Tree ι h) :
    (merge l s r).kids = l.kids ++ r.kids := by
  cases h with
  | zero => rfl
  | succ h =>
      obtain ⟨i, ks, cs, rfl⟩ := l.exists_node
      obtain ⟨j, ks', cs', rfl⟩ := r.exists_node
      exact List.flatMap_append

end Tree

/-! ## Searching a leaf -/

/-- Binary search splits the bindings of a leaf around the key, which it finds or not. -/
theorem binarySearch_cases {es : List Entry} (hs : OrdMap.Sorted es) (key : Bytes) :
    (∃ l v r, es = l ++ [(key, v)] ++ r ∧ (∀ e ∈ l, e.1 < key) ∧ (∀ e ∈ r, key < e.1) ∧
      binarySearch (es.map Prod.fst) key = .ok l.length) ∨
    ∃ l r, es = l ++ r ∧ (∀ e ∈ l, e.1 < key) ∧ (∀ e ∈ r, key < e.1) ∧
      binarySearch (es.map Prod.fst) key = .error l.length := by
  have hpoint : OrdMap.partitionPoint (fun k => decide (k < key)) (es.map Prod.fst) =
      OrdMap.partitionPoint (fun e : Entry => decide (e.1 < key)) es := OrdMap.partitionPoint_map ..
  -- the search stops at the first key that is not below the one sought
  obtain ⟨m, hm⟩ : ∃ m, m = OrdMap.partitionPoint (fun e : Entry => decide (e.1 < key)) es :=
    ⟨_, rfl⟩
  have hle : m ≤ es.length := hm ▸ OrdMap.partitionPoint_le _ _
  have hlen : (es.take m).length = m := List.length_take_of_le hle
  have hbelow : ∀ e ∈ es.take m, e.1 < key := by
    intro e he
    rw [hm] at he
    have := OrdMap.lt_of_mem_take_partitionPoint (p := fun e : Entry => decide (e.1 < key)) he
    exact of_decide_eq_true this
  have habove : ∀ e ∈ es.drop m, key ≤ e.1 := by
    intro e he
    rw [hm] at he
    have := OrdMap.not_of_mem_drop_partitionPoint hs
      (fun a b hab hb => decide_eq_true (lt_trans hab (of_decide_eq_true hb))) he
    exact not_lt.mp (of_decide_eq_false this)
  have hsplit : es = es.take m ++ es.drop m := (List.take_append_drop m es).symm
  -- whether it is found depends on the key there alone
  have hsearch : binarySearch (es.map Prod.fst) key =
      if (es.map Prod.fst)[m]? = some key then .ok m else .error m := by
    unfold binarySearch
    rw [hpoint, ← hm]
  have hget : (es.map Prod.fst)[m]? = (es.drop m).head?.map Prod.fst := by
    rw [List.getElem?_map, List.head?_drop]
  rw [hsearch, hget]
  have hsr : OrdMap.Sorted (es.drop m) := hs.sublist (List.drop_sublist m es)
  cases hr : es.drop m with
  | nil =>
      refine .inr ⟨es.take m, [], by rw [← hr, List.take_append_drop], hbelow, by simp, ?_⟩
      simp [hlen]
  | cons e r =>
      rw [hr] at hsr habove
      obtain ⟨k, v⟩ := e
      by_cases hk : k = key
      · subst hk
        refine .inl ⟨es.take m, v, r, ?_, hbelow, (OrdMap.sorted_cons.mp hsr).1, by simp [hlen]⟩
        rw [List.append_assoc, List.singleton_append, ← hr, List.take_append_drop]
      · refine .inr ⟨es.take m, (k, v) :: r, by rw [← hr, List.take_append_drop], hbelow, ?_, ?_⟩
        · have hkey : key < k := lt_of_le_of_ne (habove (k, v) (by simp)) (Ne.symm hk)
          intro e he
          rcases List.mem_cons.mp he with rfl | he
          · exact hkey
          · exact lt_trans hkey ((OrdMap.sorted_cons.mp hsr).1 e he)
        · simp [hlen, hk]

/-- Inserting into a stored leaf binds the key. -/
theorem leafInsert_eq {es : List Entry} (hs : OrdMap.Sorted es) (i : Nat) (key value : Bytes) :
    leafInsert (es.map Prod.fst) (es.map Prod.snd) key value =
      (leaf i (OrdMap.insert key value es)).toNode := by
  rcases binarySearch_cases hs key with ⟨l, v, r, rfl, hl, hr, hb⟩ | ⟨l, r, rfl, hl, hr, hb⟩
  · unfold leafInsert
    rw [hb, OrdMap.insert_middle hl hr]
    simp [OrdMap.insert]
  · unfold leafInsert
    have hins : OrdMap.insert key value (l ++ r) = l ++ (key, value) :: r := by
      have hmid : OrdMap.insert key value (l ++ [] ++ r) = l ++ OrdMap.insert key value [] ++ r :=
        OrdMap.insert_middle hl hr value
      rw [List.append_nil, OrdMap.insert] at hmid
      simpa using hmid
    rw [hb, hins, List.map_append, List.map_append]
    simp only [Tree.toNode_leaf, List.map_append, List.map_cons]
    congr 1
    · rw [← insertIdx_length_append, List.length_map]
    · rw [← insertIdx_length_append, List.length_map]

/-- The bindings of a leaf after the one at a found position was removed. -/
theorem find_none_or_erase {es : List Entry} (hs : OrdMap.Sorted es) (key : Bytes) :
    (OrdMap.find key es = none ∧ ∃ i, binarySearch (es.map Prod.fst) key = .error i) ∨
    (∃ v, OrdMap.find key es = some v ∧ ∃ i, binarySearch (es.map Prod.fst) key = .ok i ∧
      (es.map Prod.snd)[i]? = some v ∧
      ((OrdMap.erase key es).map Prod.fst) = (es.map Prod.fst).eraseIdx i ∧
      ((OrdMap.erase key es).map Prod.snd) = (es.map Prod.snd).eraseIdx i) := by
  rcases binarySearch_cases hs key with ⟨l, v, r, rfl, hl, hr, hb⟩ | ⟨l, r, rfl, hl, hr, hb⟩
  · refine .inr ⟨v, ?_, l.length, hb, by simp, ?_, ?_⟩
    · rw [OrdMap.find_middle hl hr]
      simp [OrdMap.find]
    · rw [OrdMap.erase_middle hl hr]
      simp [OrdMap.erase, List.eraseIdx_append]
    · rw [OrdMap.erase_middle hl hr]
      simp [OrdMap.erase, List.eraseIdx_append]
  · refine .inl ⟨?_, l.length, hb⟩
    have hmid : OrdMap.find key (l ++ [] ++ r) = OrdMap.find key [] := OrdMap.find_middle hl hr
    rwa [List.append_nil] at hmid

/-! ## Trees held in a pager -/

/-- Every node of the tree is stored at the page it is labelled with, and the page is owned. -/
def Held (p : Pager Node) : {h : Nat} → Tree Nat h → Prop
  | 0, t => p.view (LeafNode.label t) =
      some { id := LeafNode.label t, body := .data (Tree.toNode (h := 0) t) } ∧
      p.Owned (LeafNode.label t)
  | h + 1, t => (p.view (InnerNode.label t) =
      some { id := InnerNode.label t, body := .data (Tree.toNode (h := h + 1) t) } ∧
      p.Owned (InnerNode.label t)) ∧ ∀ c ∈ InnerNode.children t, Held p c

/-- The children of the root are held. -/
def Below (p : Pager Node) : {h : Nat} → Tree Nat h → Prop
  | 0, _ => True
  | _ + 1, t => ∀ c ∈ InnerNode.children t, Held p c

section Held

variable {p p' : Pager Node} {h : Nat} {lo hi : Option Bytes} {new : List Nat}

/-- A tree is held when its page shows its root and its children are held. -/
theorem held_iff {t : Tree Nat h} : Held p t ↔
    (p.view t.label = some { id := t.label, body := .data t.toNode } ∧ p.Owned t.label) ∧
      Below p t := by
  cases h with
  | zero => exact (and_iff_left trivial).symm
  | succ h => exact Iff.rfl

theorem below_node {i : Nat} {ks : List Bytes} {cs : List (Tree Nat h)} :
    Below p (node i ks cs) ↔ ∀ c ∈ cs, Held p c := Iff.rfl

/-- Every page of a held tree is owned. -/
theorem Held.owned {t : Tree Nat h} (ht : Held p t) : ∀ id ∈ t.labels, p.Owned id := by
  induction h with
  | zero =>
      intro id hid
      obtain ⟨i, es, rfl⟩ := t.exists_leaf
      rw [Tree.labels_leaf] at hid
      rw [List.mem_singleton.mp hid]
      exact ht.2
  | succ h ih =>
      intro id hid
      obtain ⟨i, ks, cs, rfl⟩ := t.exists_node
      rw [Tree.labels_node] at hid
      rcases List.mem_cons.mp hid with rfl | hid
      · exact ht.1.2
      · obtain ⟨c, hc, hid⟩ := List.mem_flatMap.mp hid
        exact ih (ht.2 c hc) id hid

/-- A tree stays held while its pages read the same and stay owned. -/
theorem Held.frame {t : Tree Nat h} (ht : Held p t)
    (hview : ∀ id ∈ t.labels, p'.view id = p.view id) (howned : ∀ id ∈ t.labels, p'.Owned id) :
    Held p' t := by
  induction h with
  | zero =>
      obtain ⟨i, es, rfl⟩ := t.exists_leaf
      exact ⟨(hview i (by simp)).trans ht.1, howned i (by simp)⟩
  | succ h ih =>
      obtain ⟨i, ks, cs, rfl⟩ := t.exists_node
      rw [Tree.labels_node] at hview howned
      refine ⟨⟨(hview i (by simp)).trans ht.1.1, howned i (by simp)⟩, fun c hc => ?_⟩
      have hsub : ∀ id ∈ c.labels, id ∈ i :: cs.flatMap Tree.labels := fun id hid =>
        List.mem_cons_of_mem _ (List.mem_flatMap.mpr ⟨c, hc, hid⟩)
      exact ih (ht.2 c hc) (fun id hid => hview id (hsub id hid))
        (fun id hid => howned id (hsub id hid))

theorem Held.grows {t : Tree Nat h} (ht : Held p t) (hg : Pager.Grows p p' new) : Held p' t :=
  ht.frame (fun id hid => hg.view id (ht.owned id hid))
    (fun id hid => hg.owned_mono (ht.owned id hid))

theorem Below.grows {t : Tree Nat h} (ht : Below p t) (hg : Pager.Grows p p' new) : Below p' t := by
  cases h with
  | zero => exact trivial
  | succ h => exact fun c hc => (ht c hc).grows hg

theorem Below.split {t : Tree Nat h} (ht : Below p t) :
    Below p t.split.1 ∧ Below p t.split.2.2 := by
  cases h with
  | zero => exact ⟨trivial, trivial⟩
  | succ h =>
      obtain ⟨i, ks, cs, rfl⟩ := t.exists_node
      rw [Tree.split_node]
      exact ⟨fun c hc => ht c (List.mem_of_mem_take hc), fun c hc => ht c (List.mem_of_mem_drop hc)⟩

theorem Below.merge {l r : Tree Nat h} (s : Bytes) (hl : Below p l) (hr : Below p r) :
    Below p (Tree.merge l s r) := by
  cases h with
  | zero => exact trivial
  | succ h =>
      obtain ⟨i, ks, cs, rfl⟩ := l.exists_node
      obtain ⟨j, ks', cs', rfl⟩ := r.exists_node
      intro c hc
      rcases List.mem_append.mp hc with hc | hc
      · exact hl c hc
      · exact hr c hc

/-- A held, ordered node decodes to itself. -/
theorem Held.readable {t : Tree Nat h} (ht : Held p t) (hpre : t.Pre lo hi) :
    t.toNode.Readable := by
  cases h with
  | zero =>
      obtain ⟨i, es, rfl⟩ := t.exists_leaf
      exact ⟨by simp, (Tree.pre_leaf.mp hpre).1.keys⟩
  | succ h =>
      obtain ⟨i, ks, cs, rfl⟩ := t.exists_node
      obtain ⟨-, hchain⟩ := Tree.pre_node.mp hpre
      refine ⟨(List.length_map ..).trans hchain.length, fun c hc => ?_, hchain.ascending⟩
      obtain ⟨c', hc', rfl⟩ := List.mem_map.mp hc
      exact ((ht.2 c' hc').owned c'.label (by rw [Tree.labels_eq]; simp)).1

end Held

/-! ## Reading and writing a node -/

section Nodes

variable {p : Pager Node} {h : Nat} {lo hi : Option Bytes}

/-- Operations on trees only allocate: `new` is the trace of pages handed out. -/
def Alloc (p : Pager Node) (new : List Nat) (p' : Pager Node) : Prop := Pager.Grows p p' new

theorem Alloc.trans {a b c : Pager Node} {l l' : List Nat} (h₁ : Alloc a l b) (h₂ : Alloc b l' c) :
    Alloc a (l ++ l') c := Pager.Grows.trans h₁ h₂

theorem liftPager_of_ok {β : Type} {x : PagerM Node β} {p p' : Pager Node} {b : β}
    (hx : x p = .ok b p') : liftPager x p = .ok b p' := by
  unfold liftPager
  rw [hx]

theorem liftPager_of_error {β : Type} {x : PagerM Node β} {p p' : Pager Node} {e : PagerError}
    (hx : x p = .error e p') : liftPager x p = .error (.pager e) p' := by
  unfold liftPager
  rw [hx]

/-- Reading the page of a held node. -/
theorem readNode_spec {t : Tree Nat h} (hp : p.Ok) (ht : Held p t) (hpre : t.Pre lo hi) :
    ∃ p', readNode t.label p = .ok t.toNode p' ∧ Pager.Reads p p' := by
  obtain ⟨⟨hview, howned⟩, -⟩ := held_iff.mp ht
  obtain ⟨p', hread, hreads⟩ := (Pager.readPage_spec hp t.label).1 howned.1 howned.2.1 _ hview
  refine ⟨p', ?_, hreads⟩
  unfold readNode
  rw [Lib.bind_of_ok (liftPager_of_ok hread)]
  simp only [Node.decode_of_readable (ht.readable hpre)]
  rfl

/-- Writing a node: its page is new, and holds the node if it fits. -/
theorem writeNode_spec (hp : p.Ok) (n : Node) :
    (n.encodedLen ≤ cap → ∃ id p', writeNode n p = .ok id p' ∧ Pager.Grows p p' [id] ∧
      p'.view id = some { id := id, body := .data n }) ∧
    (cap < n.encodedLen → ∃ p' id,
      writeNode n p = .error (.pager (.payloadTooLarge n.encodedLen cap)) p' ∧
      Pager.Grows p p' [id]) := by
  obtain ⟨id, p₁, halloc, hg, -⟩ := Pager.alloc_spec hp
  have howned : p₁.Owned id := hg.owned_of_new hp (by simp)
  unfold writeNode
  rw [Lib.bind_of_ok (liftPager_of_ok halloc)]
  constructor
  · intro hlen
    obtain ⟨p₂, hwrite, hst⟩ := Pager.writePage_spec hg.ok howned.1 howned.2.1
      (show Payload.len n ≤ pagePayloadSize from hlen)
    rw [Lib.bind_of_ok (liftPager_of_ok hwrite)]
    refine ⟨id, p₂, rfl, hg.stage (by simp) hst, ?_⟩
    rw [hst.view id, if_pos rfl]
  · intro hlen
    have hwrite : Pager.writePage id n p₁ = .error (.payloadTooLarge n.encodedLen cap) p₁ := by
      rw [Pager.writePage_eq howned.1 howned.2.1]
      exact if_pos hlen
    rw [Lib.bind_of_error (liftPager_of_error hwrite)]
    exact ⟨p₁, id, rfl, hg⟩

/-- Writing the root of a tree whose children are held. -/
theorem put_sim {t : Tree Nat h} (hp : p.Ok) (hb : Below p t) :
    Simulates Alloc (writeNode t.toNode) p (Shape.put t.erase) fun id s new p' =>
      s = t.erase ∧ new = [id] ∧ Held p' (t.relabel id) := by
  obtain ⟨hok, herr⟩ := writeNode_spec hp t.toNode
  rw [Tree.encodedLen_toNode] at hok herr
  unfold Shape.put
  rw [Tree.size_erase]
  split
  next hov =>
    obtain ⟨p', id, hw, hg⟩ := herr hov
    exact ⟨p', [id], hw, hg⟩
  next hov =>
    obtain ⟨id, p', hw, hg, hview⟩ := hok (not_lt.mp hov)
    refine ⟨id, p', [id], hw, hg, rfl, rfl, held_iff.mpr ⟨?_, ?_⟩⟩
    · rw [Tree.label_relabel, Tree.toNode_relabel]
      exact ⟨hview, hg.owned_of_new hp (by simp)⟩
    · have := hb.grows hg
      cases h <;> exact this

end Nodes

/-! ## Insertion -/

section Insert

variable {p : Pager Node} {h : Nat} {lo hi : Option Bytes} {key value : Bytes}

/-- What an insert over pages returns: the outcome on shapes, held in the pager, its pages and
the freed ones being those it started from and the allocated ones. -/
structure InsHeld (p : Pager Node) (start freed : List Nat) (ids : Ins Nat) (ins : Ins (Shape h))
    (new : List Nat) : Prop where
  trees : ∃ ts : Ins (Tree Nat h), ts.map Tree.label = ids ∧ ts.map Tree.erase = ins ∧
    (∀ t ∈ ts.parts, Held p t) ∧
    (ts.parts.flatMap Tree.labels ++ freed).Perm (start ++ new)

/-- Writing a balanced page simulates the balance of the shape. -/
theorem balanced_sim {t : Tree Nat h} (hp : p.Ok) (hb : Below p t) :
    Simulates Alloc (writeBalanced t.toNode) p (Shape.balanced t.erase) fun ids ins new p' =>
      InsHeld p' t.kids [] ids ins new := by
  unfold writeBalanced Shape.balanced Node.isOverfull
  rw [Tree.encodedLen_toNode, Tree.size_erase, Tree.split_toNode, Tree.split_erase]
  -- an overfull page is written as its two halves, any other as it is
  by_cases hov : t.size > cap
  · rw [if_pos (decide_eq_true hov), if_pos hov]
    refine Simulates.bind Alloc.trans (put_sim hp hb.split.1) ?_
    rintro lid l new₁ p₁ hg₁ ⟨rfl, rfl, hl⟩
    refine Simulates.bind Alloc.trans (put_sim (Pager.Grows.ok hg₁) (hb.split.2.grows hg₁)) ?_
    rintro rid r new₂ p₂ hg₂ ⟨rfl, rfl, hr⟩
    refine Simulates.ret (Pager.Grows.refl (Pager.Grows.ok hg₂)) ⟨
      .split (t.split.1.relabel lid) t.split.2.1 (t.split.2.2.relabel rid), ?_, ?_, ?_, ?_⟩
    · simp [Ins.map]
    · simp [Ins.map]
    · intro u hu
      simp only [Ins.parts, List.mem_cons, List.not_mem_nil, or_false] at hu
      rcases hu with rfl | rfl
      · exact hl.grows hg₂
      · exact hr
    · rw [← t.kids_split, List.perm_iff_count]
      intro a
      simp only [Ins.parts, List.flatMap_cons, List.flatMap_nil, Tree.labels_eq,
        Tree.label_relabel, Tree.kids_relabel, List.count_append, List.count_cons, List.count_nil]
      omega
  · rw [if_neg (by simpa using hov), if_neg hov]
    refine Simulates.bind Alloc.trans (put_sim hp hb) ?_
    rintro id s new p₁ hg ⟨rfl, rfl, ht⟩
    refine Simulates.ret (Pager.Grows.refl (Pager.Grows.ok hg)) ⟨.updated (t.relabel id), ?_, ?_,
      ?_, ?_⟩
    · simp [Ins.map]
    · simp [Ins.map]
    · intro u hu
      simp only [Ins.parts, List.mem_singleton] at hu
      subst hu
      exact ht
    · rw [List.perm_iff_count]
      intro a
      simp only [Ins.parts, List.flatMap_cons, List.flatMap_nil, Tree.labels_eq,
        Tree.label_relabel, Tree.kids_relabel, List.count_append, List.count_cons, List.count_nil]
      omega

theorem installChild_toNode (i : Nat) (ks : List Bytes) (cs : List (Tree Nat h)) (ci : Nat)
    (ins : Ins (Tree Nat h)) : installChild ks (cs.map Tree.label) ci (ins.map Tree.label) =
      (Tree.installChild i ks cs ci ins).toNode := by
  cases ins with
  | updated t => simp [installChild, Tree.installChild, Ins.map, List.map_set]
  | split l s r =>
      simp [installChild, Tree.installChild, Ins.map, List.map_set, List.map_insertIdx]

theorem installChild_erase (i : Nat) (ks : List Bytes) (cs : List (Tree Nat h)) (ci : Nat)
    (ins : Ins (Tree Nat h)) : Tree.installChild () ks (cs.map Tree.erase) ci (ins.map Tree.erase) =
      (Tree.installChild i ks cs ci ins).erase := by
  cases ins with
  | updated t => simp [Tree.installChild, Ins.map, List.map_set]
  | split l s r => simp [Tree.installChild, Ins.map, List.map_set, List.map_insertIdx]

/-- The children after one of them was replaced by what an insert into it returned. -/
theorem installChild_children (i : Nat) (ks : List Bytes) (cs₁ cs₃ : List (Tree Nat h))
    (c : Tree Nat h) (ins : Ins (Tree Nat h)) : ∃ ks',
    Tree.installChild i ks (cs₁ ++ [c] ++ cs₃) cs₁.length ins =
      node i ks' (cs₁ ++ ins.parts ++ cs₃) := by
  cases ins with
  | updated t => exact ⟨ks, by simp [Tree.installChild, Ins.parts]⟩
  | split l s r =>
      refine ⟨ks.insertIdx cs₁.length s, ?_⟩
      have hset : (cs₁ ++ [c] ++ cs₃).set cs₁.length l = (cs₁ ++ [l]) ++ cs₃ := by simp
      simp only [Tree.installChild, Ins.parts]
      rw [hset, show cs₁.length + 1 = (cs₁ ++ [l]).length by simp, insertIdx_length_append]
      simp

/-- Insertion into the pages simulates insertion into the shape, and frees the path it leaves. -/
theorem insertRec_sim {t : Tree Nat h} (hp : p.Ok) (ht : Held p t) (hpre : t.Pre lo hi)
    {fuel : Nat} (hfuel : h < fuel) (freed : List Nat) :
    Simulates Alloc (insertRec key value fuel t.label freed) p (Shape.insertRec key value t.erase)
      fun r ins new p' => ∃ fr, r.2 = freed ++ fr ∧ t.label ∈ fr ∧
        InsHeld p' t.labels fr r.1 ins new := by
  induction h generalizing lo hi freed fuel p with
  | zero =>
      obtain ⟨fuel, rfl⟩ : ∃ f, fuel = f + 1 := ⟨fuel - 1, by omega⟩
      obtain ⟨i, es, rfl⟩ := t.exists_leaf
      obtain ⟨p₁, hread, hreads⟩ := readNode_spec hp ht hpre
      refine Simulates.step Alloc.trans hread hreads.grows ?_
      simp only [Tree.toNode_leaf, leafInsert_eq (Tree.pre_leaf.mp hpre).1 i]
      rw [Tree.erase_leaf, Shape.insertRec_leaf, ← bind_pure (Shape.balanced _)]
      -- the leaf is written anew, in one page or split over two
      refine Simulates.bind Alloc.trans (balanced_sim (t := leaf i _) hreads.ok trivial) ?_
      rintro ids ins new p₂ hg₂ ⟨ts, hids, hins, hheld, hperm⟩
      refine Simulates.ret (Pager.Grows.refl (Pager.Grows.ok hg₂)) ⟨[i], rfl,
        List.mem_singleton.mpr rfl,
        ts, hids, hins, hheld, ?_⟩
      rw [List.perm_iff_count] at hperm ⊢
      -- every page is a page of the old leaf, a new one or one given up, counted one by one
      intro a
      have := hperm a
      simp only [Tree.kids_leaf, Tree.labels_leaf, List.count_append, List.count_nil,
        List.count_cons] at this ⊢
      omega
  | succ h ih =>
      obtain ⟨fuel, rfl⟩ : ∃ f, fuel = f + 1 := ⟨fuel - 1, by omega⟩
      obtain ⟨i, ks, cs, rfl⟩ := t.exists_node
      obtain ⟨p₁, hread, hreads⟩ := readNode_spec hp ht hpre
      have hg₁ := hreads.grows
      refine Simulates.step Alloc.trans hread hg₁ ?_
      obtain ⟨-, hchain⟩ := Tree.pre_node.mp hpre
      -- the child the key is routed to, among its siblings
      obtain ⟨-, -, cs₁, c, cs₃, -, hcs, -, hl₂⟩ :=
        hchain.at_index (routeIndex ks key) (OrdMap.partitionPoint_le _ _)
      obtain ⟨a, b, hwf⟩ := hchain.exists_bounds (c := c) (by rw [hcs]; simp)
      have hheld : ∀ c ∈ cs, Held p₁ c := fun c hc => (ht.2 c hc).grows hg₁
      have hget : (cs.map Tree.erase)[routeIndex ks key]? = some c.erase := by
        rw [hcs, ← hl₂]
        simp
      have hchild : (cs.map Tree.label).getD (routeIndex ks key) 0 = c.label := by
        rw [hcs, ← hl₂]
        simp
      rw [Tree.erase_node, Shape.insertRec_node () ks _ hget]
      simp only [Tree.toNode_node, hchild]
      refine Simulates.bind Alloc.trans
        (ih hreads.ok (hheld c (by rw [hcs]; simp)) hwf.pre (by omega) _) ?_
      -- the child has come back as one tree or as two; they take its place
      rintro ⟨ids, fr'⟩ ins new p₂ hg₂ ⟨fr, hfr, -, ts, rfl, rfl, hts, hperm⟩
      change fr' = _ at hfr
      rw [installChild_erase i, ← bind_pure (Shape.balanced _)]
      change Simulates Alloc (writeBalanced (installChild ks (cs.map Tree.label) (routeIndex ks key)
        (ts.map Tree.label)) >>= fun ins => pure (ins, fr')) p₂ _ _
      rw [installChild_toNode i]
      obtain ⟨ks', hnode⟩ := installChild_children i ks cs₁ cs₃ c ts
      rw [hl₂, ← hcs] at hnode
      rw [hnode]
      -- the siblings are still held: the pager has only grown
      have hbelow : Below p₂ (node i ks' (cs₁ ++ ts.parts ++ cs₃)) := by
        rw [below_node]
        intro c' hc'
        simp only [List.mem_append] at hc'
        rcases hc' with (hc' | hc') | hc'
        · exact (hheld c' (by rw [hcs]; simp [hc'])).grows hg₂
        · exact hts c' hc'
        · exact (hheld c' (by rw [hcs]; simp [hc'])).grows hg₂
      refine Simulates.bind Alloc.trans (balanced_sim (Pager.Grows.ok hg₂) hbelow) ?_
      rintro ids' ins' new' p₃ hg₃ ⟨us, hids, hins, hus, hperm'⟩
      refine Simulates.ret (Pager.Grows.refl (Pager.Grows.ok hg₃)) ⟨[i] ++ fr, ?_,
        List.mem_cons_self .., us, hids, hins, hus, ?_⟩
      · simp [hfr]
      -- the pages of the child and of the node itself
      · rw [List.perm_iff_count] at hperm hperm' ⊢
        intro a
        have h₁ := hperm a
        have h₂ := hperm' a
        rw [hcs]
        simp only [Tree.kids_node, Tree.labels_node, List.count_append, List.count_nil,
          List.count_cons, List.flatMap_append, List.flatMap_singleton] at h₁ h₂ ⊢
        omega

end Insert

/-! ## Deletion -/

section Delete

variable {p : Pager Node} {h : Nat} {lo hi : Option Bytes} {key : Bytes}

/-- What repairing the children of a node returns over pages. -/
structure KidsHeld (p : Pager Node) (start freed : List Nat) (ids : List Nat)
    (cs : List (Shape h)) (new : List Nat) : Prop where
  trees : ∃ ts : List (Tree Nat h), ts.map Tree.label = ids ∧ ts.map Tree.erase = cs ∧
    (∀ t ∈ ts, Held p t) ∧ (ts.flatMap Tree.labels ++ freed).Perm (start ++ new)

/-- Rebalancing two siblings in the pages simulates rebalancing them in the shape. -/
theorem rebalance_sim {ks : List Bytes} {cs : List (Tree Nat h)} {ci : Nat} (hp : p.Ok)
    (hheld : ∀ c ∈ cs, Held p c) (hpre : ∀ c ∈ cs, ∃ a b, c.Pre a b)
    (hlen : cs.length = ks.length + 1) (hks : ks ≠ []) (hci : ci < cs.length) (freed : List Nat) :
    Simulates Alloc (rebalance ks (cs.map Tree.label) ci freed) p
      (Shape.rebalance ks (cs.map Tree.erase) ci) fun r out new p' =>
        ∃ fr, r.1 = out.1 ∧ r.2.2 = freed ++ fr ∧
          KidsHeld p' (cs.flatMap Tree.labels) fr r.2.1 out.2 new := by
  have hpos := List.length_pos_iff.mpr hks
  unfold rebalance Shape.rebalance
  -- the pair is the child and its left sibling, or its right one if it is the first
  obtain ⟨l, hl⟩ : ∃ l, l = if ci > 0 then ci - 1 else ci := ⟨_, rfl⟩
  rw [← hl]
  have hll : l + 1 < cs.length := by
    split at hl <;> omega
  obtain ⟨cs₁, x, y, cs₃, rfl, hcl⟩ := Shape.exists_pair hll
  subst hcl
  have hx : Held p x := hheld x (by simp)
  have hy : Held p y := hheld y (by simp)
  obtain ⟨a, b, hxp⟩ := hpre x (by simp)
  obtain ⟨a', b', hyp⟩ := hpre y (by simp)
  have hgx : ((cs₁ ++ [x, y] ++ cs₃).map Tree.erase)[cs₁.length]? = some x.erase := by simp
  have hgy : ((cs₁ ++ [x, y] ++ cs₃).map Tree.erase)[cs₁.length + 1]? = some y.erase := by simp
  have hlx : ((cs₁ ++ [x, y] ++ cs₃).map Tree.label).getD cs₁.length 0 = x.label := by simp
  have hly : ((cs₁ ++ [x, y] ++ cs₃).map Tree.label).getD (cs₁.length + 1) 0 = y.label := by simp
  simp only [hgx, hgy, hlx, hly]
  -- both pages are read and joined in memory
  obtain ⟨p₁, hread₁, hr₁⟩ := readNode_spec hp hx hxp
  refine Simulates.step Alloc.trans hread₁ hr₁.grows ?_
  obtain ⟨p₂, hread₂, hr₂⟩ := readNode_spec hr₁.ok (hy.grows hr₁.grows) hyp
  refine Simulates.step Alloc.trans hread₂ hr₂.grows ?_
  have hg₂ := (hr₁.trans hr₂).grows
  have hbelow : Below p₂ (Tree.merge x (ks.getD cs₁.length []) y) :=
    Below.merge _ ((held_iff.mp hx).2.grows hg₂) ((held_iff.mp hy).2.grows hg₂)
  have hheld₂ : ∀ c, c ∈ cs₁ ∨ c ∈ cs₃ → Held p₂ c := fun c hc =>
    (hheld c (by simp only [List.mem_append]; tauto)).grows hg₂
  have hkids := Tree.kids_merge x (ks.getD cs₁.length []) y
  -- page size is a property of the node, so both levels split in the same case
  have hover : (Tree.merge x (ks.getD cs₁.length []) y).toNode.isOverfull =
      decide ((Tree.merge x (ks.getD cs₁.length []) y).size > cap) := by
    rw [Node.isOverfull, Tree.encodedLen_toNode]
  simp only [Tree.merge_toNode, Tree.merge_erase, Tree.split_toNode, Tree.split_erase,
    Tree.size_erase, hover, decide_eq_true_eq]
  generalize Tree.merge x (ks.getD cs₁.length []) y = m at hbelow hkids ⊢
  split
  next hov =>
    -- too much for one page: the halves of the new split are written
    refine Simulates.bind Alloc.trans (put_sim hr₂.ok hbelow.split.1) ?_
    rintro lid ls new₁ p₃ hg₃ ⟨rfl, rfl, hl⟩
    refine Simulates.bind Alloc.trans
      (put_sim (Pager.Grows.ok hg₃) (hbelow.split.2.grows hg₃)) ?_
    rintro rid rs new₂ p₄ hg₄ ⟨rfl, rfl, hr⟩
    refine Simulates.ret (Pager.Grows.refl (Pager.Grows.ok hg₄)) ⟨[x.label, y.label], rfl, rfl,
      cs₁ ++ [m.split.1.relabel lid, m.split.2.2.relabel rid] ++ cs₃, ?_, ?_, ?_, ?_⟩
    · simp
    · simp
    · intro c hc
      simp only [List.mem_append, List.mem_cons, List.not_mem_nil, or_false] at hc
      rcases hc with (hc | rfl | rfl) | hc
      · exact ((hheld₂ c (.inl hc)).grows hg₃).grows hg₄
      · exact hl.grows hg₄
      · exact hr
      · exact ((hheld₂ c (.inr hc)).grows hg₃).grows hg₄
    · rw [← m.kids_split] at hkids
      rw [List.perm_iff_count]
      intro a
      have := congrArg (List.count a) hkids
      simp only [List.flatMap_append, List.flatMap_cons, List.flatMap_nil, Tree.labels_eq,
        Tree.label_relabel, Tree.kids_relabel, List.count_append, List.count_cons,
        List.count_nil] at this ⊢
      omega
  next hov =>
    -- the union fits: one page takes the place of two
    refine Simulates.bind Alloc.trans (put_sim hr₂.ok hbelow) ?_
    rintro id s new p₃ hg₃ ⟨rfl, rfl, hm⟩
    refine Simulates.ret (Pager.Grows.refl (Pager.Grows.ok hg₃)) ⟨[x.label, y.label], rfl, rfl,
      cs₁ ++ [m.relabel id] ++ cs₃, ?_, ?_, ?_, ?_⟩
    · simp [List.eraseIdx_append]
    · simp [List.eraseIdx_append]
    · intro c hc
      simp only [List.mem_append, List.mem_singleton] at hc
      rcases hc with (hc | rfl) | hc
      · exact (hheld₂ c (.inl hc)).grows hg₃
      · exact hm
      · exact (hheld₂ c (.inr hc)).grows hg₃
    · rw [List.perm_iff_count]
      intro a
      have := congrArg (List.count a) hkids
      simp only [List.flatMap_append, List.flatMap_cons, List.flatMap_nil, Tree.labels_eq,
        Tree.label_relabel, Tree.kids_relabel, List.count_append, List.count_cons,
        List.count_nil] at this ⊢
      omega

/-- A subtree rebuilt by a delete, held in the pager. -/
def DoneHeld (p : Pager Node) (start freed : List Nat) (ids : Del Nat) (d : Del (Shape h))
    (new : List Nat) : Prop :=
  ∃ (t : Tree Nat h) (u : Bool), ids = .done t.label u ∧ d = .done t.erase u ∧ Held p t ∧
    (t.labels ++ freed).Perm (start ++ new)

/-- What a recursive delete returns over pages. -/
def DelHeld (p : Pager Node) (start freed : List Nat) (ids : Del Nat) (d : Del (Shape h))
    (new : List Nat) : Prop :=
  (ids = .unchanged ∧ d = .unchanged ∧ freed = [] ∧ new = []) ∨ DoneHeld p start freed ids d new

/-- Writing a page after a deletion simulates the same step of the shape. -/
theorem putDone_sim {t : Tree Nat h} (hp : p.Ok) (hb : Below p t) (freed : List Nat) :
    Simulates Alloc (do
        let id ← writeNode t.toNode
        pure (Del.done id t.toNode.isUnderfull, freed)) p (Shape.putDone t.erase)
      fun r d new p' => r.2 = freed ∧ DoneHeld p' t.kids [] r.1 d new := by
  refine Simulates.bind Alloc.trans (put_sim hp hb) ?_
  rintro id s new p₁ hg ⟨rfl, rfl, ht⟩
  refine Simulates.ret (Pager.Grows.refl (Pager.Grows.ok hg)) ⟨rfl, t.relabel id,
    t.toNode.isUnderfull, ?_, ?_, ht, ?_⟩
  · rw [Tree.label_relabel]
  · rw [Tree.erase_relabel, Node.isUnderfull, Tree.encodedLen_toNode, Tree.size_erase]
  · rw [List.perm_iff_count]
    intro a
    simp only [Tree.labels_eq, Tree.label_relabel, Tree.kids_relabel, List.count_append,
      List.count_cons, List.count_nil]
    omega

/-- Repairing a child simulates the repair of the shape, whether it is underfull or not. -/
theorem repair_sim {ks : List Bytes} {cs : List (Tree Nat h)} {ci : Nat} (hp : p.Ok)
    (hheld : ∀ c ∈ cs, Held p c) (hpre : ∀ c ∈ cs, ∃ a b, c.Pre a b)
    (hlen : cs.length = ks.length + 1) (hks : ks ≠ []) (hci : ci < cs.length) (u : Bool)
    (freed : List Nat) :
    Simulates Alloc (repair ks (cs.map Tree.label) ci u freed) p
      (Shape.repair ks (cs.map Tree.erase) ci u) fun r out new p' =>
        ∃ fr, r.1 = out.1 ∧ r.2.2 = freed ++ fr ∧
          KidsHeld p' (cs.flatMap Tree.labels) fr r.2.1 out.2 new := by
  unfold repair Shape.repair
  cases u with
  | true => exact rebalance_sim hp hheld hpre hlen hks hci freed
  | false =>
      exact Simulates.ret (Pager.Grows.refl hp) ⟨[], rfl, (List.append_nil _).symm,
        cs, rfl, rfl, hheld, List.Perm.refl _⟩

/-- Deletion from the pages simulates deletion from the shape, and frees the path it leaves. -/
theorem deleteRec_sim {t : Tree Nat h} (hp : p.Ok) (ht : Held p t) (hpre : t.Pre lo hi)
    (hf : h ≠ 0 → t.Full) {fuel : Nat} (hfuel : h < fuel) (freed : List Nat) :
    Simulates Alloc (deleteRec key fuel t.label freed) p (Shape.deleteRec key t.erase)
      fun r d new p' => ∃ fr, r.2 = freed ++ fr ∧ (d ≠ .unchanged → t.label ∈ fr) ∧
        DelHeld p' t.labels fr r.1 d new := by
  induction h generalizing lo hi freed fuel p with
  | zero =>
      obtain ⟨fuel, rfl⟩ : ∃ f, fuel = f + 1 := ⟨fuel - 1, by omega⟩
      obtain ⟨i, es, rfl⟩ := t.exists_leaf
      obtain ⟨p₁, hread, hreads⟩ := readNode_spec hp ht hpre
      refine Simulates.step Alloc.trans hread hreads.grows ?_
      rw [Tree.erase_leaf, Shape.deleteRec_leaf]
      simp only [Tree.toNode_leaf]
      -- an absent key leaves the leaf where it is
      rcases find_none_or_erase (Tree.pre_leaf.mp hpre).1 key with
        ⟨hfind, j, hb⟩ | ⟨v, hfind, j, hb, -, hk, hv⟩
      · simp only [hfind, hb]
        exact Simulates.ret (Pager.Grows.refl hreads.ok)
          ⟨[], (List.append_nil _).symm, fun h => absurd rfl h, .inl ⟨rfl, rfl, rfl, rfl⟩⟩
      · simp only [hfind, hb, ← hk, ← hv]
        refine (putDone_sim (t := leaf i (OrdMap.erase key es)) hreads.ok trivial _).mono ?_
        rintro ⟨ids, fr⟩ d new p₂ hg ⟨hfr, t', u, hids, hd, hheld, hperm⟩
        refine ⟨[i], hfr, fun _ => List.mem_singleton.mpr rfl, .inr ⟨t', u, hids, hd, hheld, ?_⟩⟩
        rw [List.perm_iff_count] at hperm ⊢
        -- the page of the leaf is given up for the new one
        intro a
        have := hperm a
        simp only [Tree.kids_leaf, Tree.labels_leaf, List.count_append, List.count_nil,
          List.count_cons] at this ⊢
        omega
  | succ h ih =>
      obtain ⟨fuel, rfl⟩ : ∃ f, fuel = f + 1 := ⟨fuel - 1, by omega⟩
      obtain ⟨i, ks, cs, rfl⟩ := t.exists_node
      obtain ⟨p₁, hread, hreads⟩ := readNode_spec hp ht hpre
      have hg₁ := hreads.grows
      refine Simulates.step Alloc.trans hread hg₁ ?_
      obtain ⟨-, hchain⟩ := Tree.pre_node.mp hpre
      -- the child the key is routed to, among its siblings
      obtain ⟨-, -, cs₁, c, cs₃, -, hcs, -, hl₂⟩ :=
        hchain.at_index (routeIndex ks key) (OrdMap.partitionPoint_le _ _)
      obtain ⟨a, b, hwf⟩ := hchain.exists_bounds (c := c) (by rw [hcs]; simp)
      have hheld : ∀ c ∈ cs, Held p₁ c := fun c hc => (ht.2 c hc).grows hg₁
      have hget : (cs.map Tree.erase)[routeIndex ks key]? = some c.erase := by
        rw [hcs, ← hl₂]
        simp
      have hchild : (cs.map Tree.label).getD (routeIndex ks key) 0 = c.label := by
        rw [hcs, ← hl₂]
        simp
      -- the call on the child is simulated by the induction hypothesis
      rw [Tree.erase_node, Shape.deleteRec_node () ks _ hget]
      simp only [Tree.toNode_node, hchild]
      refine Simulates.bind Alloc.trans
        (ih hreads.ok (hheld c (by rw [hcs]; simp)) hwf.pre (fun _ => hwf.full) (by omega)
          freed).attach ?_
      rintro ⟨ids, fr'⟩ d new p₂ hg₂
        ⟨hout, fr, hfr, -, ⟨hids, rfl, rfl, rfl⟩ | ⟨c', u, hids, rfl, hc', hperm⟩⟩
      · change fr' = _ at hfr
        change ids = _ at hids
        subst hfr hids
        -- nothing was deleted below, so nothing is written here
        exact Simulates.ret (Pager.Grows.refl (Pager.Grows.ok hg₂))
          ⟨[], rfl, fun h => absurd rfl h, .inl ⟨rfl, rfl, rfl, rfl⟩⟩
      · change fr' = _ at hfr
        change ids = _ at hids
        subst hfr hids
        -- the child was rebuilt: its new tree takes its place among the siblings
        have hset : ∀ {α : Type} (f : Tree Nat h → α), (cs.map f).set (routeIndex ks key) (f c') =
            (cs₁ ++ [c'] ++ cs₃).map f := by
          intro α f
          rw [hcs, ← hl₂]
          simp
        simp only [hset]
        have hheld₂ : ∀ c ∈ cs₁ ++ [c'] ++ cs₃, Held p₂ c := by
          intro c₀ hc₀
          simp only [List.mem_append, List.mem_singleton] at hc₀
          rcases hc₀ with (hc₀ | rfl) | hc₀
          · exact (hheld c₀ (by rw [hcs]; simp [hc₀])).grows hg₂
          · exact hc'
          · exact (hheld c₀ (by rw [hcs]; simp [hc₀])).grows hg₂
        -- the siblings are as they were, and of the new child the specification says enough
        have hpre₂ : ∀ c ∈ cs₁ ++ [c'] ++ cs₃, ∃ a b, c.Pre a b := by
          intro c₀ hc₀
          simp only [List.mem_append, List.mem_singleton] at hc₀
          have hold : c₀ ∈ cs → ∃ a b, c₀.Pre a b := fun hmem => by
            obtain ⟨a, b, hw⟩ := hchain.exists_bounds hmem
            exact ⟨a, b, hw.pre⟩
          rcases hc₀ with (hc₀ | rfl) | hc₀
          · exact hold (by rw [hcs]; simp [hc₀])
          · have := Shape.deleteRec_spec (Tree.pre_erase.mpr hwf.pre)
              (fun _ => c.full_erase.mpr hwf.full) hout
            exact ⟨a, b, Tree.pre_erase.mp this.1⟩
          · exact hold (by rw [hcs]; simp [hc₀])
        have hlen := hchain.length
        rw [hcs] at hlen
        -- a child that has become too small is merged or shares with a sibling
        refine Simulates.bind Alloc.trans (repair_sim (Pager.Grows.ok hg₂) hheld₂ hpre₂
          (by simpa using hlen) ((Tree.full_node ..).mp (hf (Nat.succ_ne_zero h)))
          (by simp [← hl₂]) u _) ?_
        rintro ⟨ks', ids', fr₂⟩ ⟨ks₂, cs₂⟩ new' p₃ hg₃
          ⟨fr', hks', hfr', ts, hids', hts, hheld₃, hperm'⟩
        change ks' = ks₂ at hks'
        change fr₂ = _ at hfr'
        change _ = ids' at hids'
        change _ = cs₂ at hts
        subst hks' hfr' hids' hts
        -- the node itself is written last
        have := putDone_sim (t := node i ks' ts) (Pager.Grows.ok hg₃) hheld₃
          (freed ++ fr ++ [i] ++ fr')
        refine this.mono ?_
        rintro ⟨ids, fr₄⟩ d new'' p₄ hg₄ ⟨hfr₄, t', u', hids, hd, hheld, hperm''⟩
        refine ⟨fr ++ [i] ++ fr', ?_, fun _ => by simp, .inr ⟨t', u', hids, hd, hheld, ?_⟩⟩
        · change fr₄ = _ at hfr₄ ⊢
          simp [hfr₄]
        · rw [List.perm_iff_count] at hperm hperm' hperm'' ⊢
          intro a
          -- the pages of the child, of the repair and of the node add up
          have h₁ := hperm a
          have h₂ := hperm' a
          have h₃ := hperm'' a
          rw [hcs]
          simp only [Tree.kids_node, Tree.labels_node, List.count_append, List.count_nil,
            List.count_cons, List.flatMap_append, List.flatMap_singleton] at h₁ h₂ h₃ ⊢
          omega

end Delete

/-! ## Whole trees -/

/-- A tree of any height over pages. -/
abbrev PageTree := (h : Nat) × Tree Nat h

namespace PageTree

def root (t : PageTree) : Nat := t.2.label

def pages (t : PageTree) : List Nat := t.2.labels

def shape (t : PageTree) : Shape.Any := ⟨t.1, t.2.erase⟩

def entries (t : PageTree) : List Entry := t.2.entries

end PageTree

/-- The pager holds the well-formed tree `t`, over pages of its own. -/
structure Holds (p : Pager Node) (t : PageTree) : Prop where
  held : Held p t.2
  wf : t.2.RootWF
  nodup : t.pages.Nodup

section Whole

variable {p p' : Pager Node} {t : PageTree} {key value : Bytes} {new : List Nat}

theorem Holds.owned (ht : Holds p t) : ∀ id ∈ t.pages, p.Owned id := ht.held.owned

theorem Holds.grows (ht : Holds p t) (hg : Pager.Grows p p' new) : Holds p' t :=
  ⟨ht.held.grows hg, ht.wf, ht.nodup⟩

/-- An ordered tree of height `h` has more than `h` pages. -/
theorem height_lt_labels {h : Nat} {lo hi : Option Bytes} {t : Tree Nat h}
    (hord : t.Ordered lo hi) : h < t.labels.length := by
  induction h generalizing lo hi with
  | zero => simp [Tree.labels_eq]
  | succ h ih =>
      obtain ⟨i, ks, cs, rfl⟩ := t.exists_node
      have hchain := Tree.ordered_node.mp hord
      obtain ⟨c, hc⟩ : ∃ c, c ∈ cs := by
        have := hchain.length
        exact List.exists_mem_of_length_pos (by omega)
      obtain ⟨a, b, hranged⟩ := hchain.exists_bounds hc
      have hlt := ih hranged.ordered
      have hle : c.labels.length ≤ (cs.flatMap Tree.labels).length := by
        have hsub : c.labels.Sublist (cs.flatMap Tree.labels) := by
          rw [List.flatMap_def]
          exact List.sublist_flatten_of_mem (List.mem_map_of_mem hc)
        exact hsub.length_le
      rw [Tree.labels_node, List.length_cons]
      omega

/-- Distinct owned pages are fewer than the file has. -/
theorem length_lt_of_owned {l : List Nat} (hp : p.Ok) (hn : l.Nodup)
    (ho : ∀ id ∈ l, p.Owned id) : l.length < p.metadata.pageCount := by
  have hsub : l ⊆ List.range' firstDataPage (p.metadata.pageCount - firstDataPage) := by
    intro id hid
    have := ho id hid
    exact List.mem_range'_1.mpr ⟨this.1, by have := this.2.1; have := hp.count; omega⟩
  have hle := (hn.subperm hsub).length_le
  rw [List.length_range'] at hle
  have hcount := hp.count
  have hfirst : firstDataPage = 2 := rfl
  omega

/-- The bound on a descent is never reached. -/
theorem Holds.height_lt (hp : p.Ok) (ht : Holds p t) : t.1 < p.metadata.pageCount :=
  lt_of_lt_of_le (height_lt_labels ht.wf.pre.ordered)
    (le_of_lt (length_lt_of_owned hp ht.nodup ht.owned))

theorem fuel_eq (p : Pager Node) : fuel p = .ok p.metadata.pageCount p := rfl

/-- The pages a tree operation leaves: what it returns and what it frees are the pages of the
tree it started from and the new ones, each once. The old root is freed unless the operation
`keeps` the tree where it is. -/
structure EditHeld (keeps : Prop) (p : Pager Node) (t : PageTree) (e : Edit) (s : Shape.Any)
    (new : List Nat) : Prop where
  tree : ∃ t' : PageTree, t'.root = e.newRoot ∧ t'.shape = s ∧ Held p t'.2 ∧
    (t'.pages ++ e.freed).Perm (t.pages ++ new)
  root : (keeps ∧ e = { newRoot := t.root, freed := [] } ∧ new = []) ∨
    (¬ keeps ∧ t.root ∈ e.freed)

/-- An insert at a root simulates the insert of the shape, with a new root where it splits. -/
theorem insert_sim (key value : Bytes) (hp : p.Ok) (ht : Holds p t) :
    Simulates Alloc (insert t.root key value) p (Shape.insert t.shape key value)
      fun e s new p' => EditHeld False p' t e s new := by
  unfold insert Shape.insert
  cases hentry : checkEntry key value with
  | error e => exact ⟨p, [], rfl, Pager.Grows.refl hp⟩
  | ok u =>
      refine Simulates.step Alloc.trans (fuel_eq p) (Pager.Grows.refl hp) ?_
      change Simulates Alloc _ p (Shape.insertRec key value t.2.erase >>= _) _
      refine Simulates.bind Alloc.trans
        (insertRec_sim hp ht.held ht.wf.pre (ht.height_lt hp) []) ?_
      rintro ⟨ids, fr'⟩ ins new p₁ hg ⟨fr, hfr, hroot, ts, hids, rfl, hts, hperm⟩
      change fr' = fr at hfr
      change _ = ids at hids
      subst hfr hids
      cases ts with
      | updated t' =>
          refine Simulates.ret (Pager.Grows.refl (Pager.Grows.ok hg)) ⟨⟨⟨_, t'⟩, rfl, rfl,
            hts t' (by simp [Ins.parts]), ?_⟩, .inr ⟨fun h => h, hroot⟩⟩
          rw [Ins.parts, List.flatMap_singleton] at hperm
          rwa [List.append_nil]
      | split l s r =>
          have hbelow : Below p₁ (node 0 [s] [l, r]) := hts
          change Simulates Alloc (writeNode (node 0 [s] [l, r]).toNode >>= _) p₁
            (Shape.put (node 0 [s] [l, r]).erase >>= _) _
          refine Simulates.bind Alloc.trans (put_sim (Pager.Grows.ok hg) hbelow) ?_
          rintro id s' new' p₂ hg₂ ⟨rfl, rfl, hheld⟩
          refine Simulates.ret (Pager.Grows.refl (Pager.Grows.ok hg₂)) ⟨⟨⟨_, node id [s] [l, r]⟩,
            rfl, rfl, hheld, ?_⟩, .inr ⟨fun h => h, hroot⟩⟩
          rw [List.perm_iff_count] at hperm ⊢
          intro a
          have := hperm a
          simp only [PageTree.pages, Tree.labels_node, List.count_append, List.count_cons,
            List.count_nil, Ins.parts] at this ⊢
          omega

/-- A delete at a root simulates the delete of the shape, and collapses a root of one child. -/
theorem delete_sim (key : Bytes) (hp : p.Ok) (ht : Holds p t) :
    Simulates Alloc (delete t.root key) p (Shape.delete t.shape key)
      fun e s new p' => EditHeld (Shape.deleteRec key t.2.erase = .ok .unchanged) p' t e s new := by
  refine Simulates.step Alloc.trans (fuel_eq p) (Pager.Grows.refl hp) ?_
  refine Simulates.bind Alloc.trans
    (deleteRec_sim hp ht.held ht.wf.pre ht.wf.full (ht.height_lt hp) []).attach ?_
  rintro ⟨ids, fr'⟩ d new p₁ hg
    ⟨hout, fr, hfr, hroot, ⟨hids, rfl, rfl, rfl⟩ | ⟨t', u, hids, rfl, ht', hperm⟩⟩
  · change fr' = [] at hfr
    change ids = _ at hids
    subst hfr hids
    -- the key was not there
    exact Simulates.ret (Pager.Grows.refl (Pager.Grows.ok hg)) ⟨⟨t, rfl, rfl, ht.held.grows hg,
      List.Perm.refl _⟩, .inl ⟨hout, rfl, rfl⟩⟩
  · change fr' = fr at hfr
    change ids = _ at hids
    subst hfr hids
    -- the root was rewritten; it is read back, to see whether it has a single child left
    have hmoved : ¬ Shape.deleteRec key t.2.erase = .ok .unchanged := by
      rw [hout]
      exact fun h => nomatch h
    have hfreed : t.root ∈ fr' := hroot fun h => nomatch h
    have hpre : t'.Pre none none :=
      Tree.pre_erase.mp (Shape.deleteRec_spec (Tree.pre_erase.mpr ht.wf.pre)
        (fun h => t.2.full_erase.mpr (ht.wf.full h)) hout).1
    obtain ⟨p₂, hread, hreads⟩ := readNode_spec (Pager.Grows.ok hg) ht' hpre
    refine Simulates.step Alloc.trans hread hreads.grows ?_
    have hheld := ht'.grows hreads.grows
    obtain ⟨h, t⟩ := t
    cases h with
    | zero =>
        obtain ⟨i, es, rfl⟩ := t'.exists_leaf
        exact Simulates.ret (Pager.Grows.refl hreads.ok) ⟨⟨⟨_, leaf i es⟩, rfl, rfl, hheld,
          (by rwa [List.append_nil, List.append_nil])⟩, .inr ⟨hmoved, hfreed⟩⟩
    | succ h =>
        obtain ⟨i, ks, cs, rfl⟩ := t'.exists_node
        -- with a single child the tree loses a level, and the root page is given up
        by_cases hone : ∃ c, cs = [c]
        · obtain ⟨c, rfl⟩ := hone
          refine Simulates.ret (Pager.Grows.refl hreads.ok) ⟨⟨⟨_, c⟩, rfl, rfl,
            hheld.2 c (List.mem_singleton.mpr rfl), ?_⟩,
            .inr ⟨hmoved, List.mem_append_left _ hfreed⟩⟩
          rw [List.perm_iff_count] at hperm ⊢
          intro a
          have := hperm a
          simp only [PageTree.pages, Tree.labels_node, List.count_append, List.count_cons,
            List.count_nil, List.flatMap_singleton, Tree.label_node] at this ⊢
          omega
        -- both levels agree on whether there is one child, the pages by labels
        · have hone' : ∀ c, cs.map Tree.erase ≠ [c] := by
            intro c hc
            obtain ⟨c', hc', -⟩ := List.map_eq_singleton_iff.mp hc
            exact hone ⟨c', hc'⟩
          have hpage : ∀ c, cs.map Tree.label ≠ [c] := by
            intro c hc
            obtain ⟨c', hc', -⟩ := List.map_eq_singleton_iff.mp hc
            exact hone ⟨c', hc'⟩
          simp only [Tree.erase_node, Tree.toNode_node]
          refine Simulates.mono (Q := fun e s new p' => e = { newRoot := i, freed := fr' } ∧
            s = ⟨h + 1, node () ks (cs.map Tree.erase)⟩ ∧ new = [] ∧ p' = p₂) ?_ ?_
          · split
            next c hc => exact absurd (by injection hc) (hpage c)
            next =>
              exact Simulates.ret (Pager.Grows.refl hreads.ok)
                ⟨rfl, Shape.collapse_of_ne () ks hone', rfl, rfl⟩
          · rintro e s new' p₃ hg₃ ⟨rfl, rfl, rfl, rfl⟩
            exact ⟨⟨⟨_, node i ks cs⟩, rfl, rfl, hheld, by rwa [List.append_nil, List.append_nil]⟩,
              .inr ⟨hmoved, hfreed⟩⟩

end Whole

end Edb.BTree
