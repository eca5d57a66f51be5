import Edb.BTree.Pages

/-!
# Trees in a store

What a page shows does not depend on the cache: `nodeAt p` assigns to every page id its node, or
the error of reading it. `Stands store t` says that such a store holds the tree `t`, every node at
the page of its label. It asks nothing else of the pages: other pages may list these as children,
and a page may be listed twice.
-/

namespace Edb.BTree

open Edb.Lib
open BTree.Tree (leaf node WF RootWF Pre)

/-- What every page shows. -/
abbrev Store := Nat → Except BTreeError Node

/-- The node a page shows. -/
def nodeAt (p : Pager Node) (id : Nat) : Except BTreeError Node :=
  match p.shown id with
  | .error e => .error (.pager e)
  | .ok f =>
      match f.body with
      | .data n =>
          match n.decode id with
          | .ok n => .ok n
          | .error c => .error (.corruption c)
      | _ => .error (.corruption (.unknownNodeKind id))

theorem nodeAt_peeks {p p' : Pager Node} (h : Pager.Peeks p p') : nodeAt p' = nodeAt p := by
  funext id
  unfold nodeAt
  rw [h.shown]

theorem peeks_pageCount {p p' : Pager Node} (h : Pager.Peeks p p') :
    p'.metadata.pageCount = p.metadata.pageCount := by
  obtain ⟨c, rfl⟩ := h.same
  rfl

/-- A page that shows a node is a page of the file, and the node is readable. -/
theorem nodeAt_eq_ok {p : Pager Node} {id : Nat} {n : Node} (h : nodeAt p id = .ok n) :
    firstDataPage ≤ id ∧ id < p.metadata.pageCount ∧ n.Readable := by
  unfold nodeAt at h
  cases hshown : p.shown id with
  | error e =>
      rw [hshown] at h
      cases h
  | ok f =>
      rw [hshown] at h
      have hrange : ¬ (id < firstDataPage ∨ id ≥ p.metadata.pageCount) := by
        intro hout
        unfold Pager.shown at hshown
        rw [if_pos hout] at hshown
        cases hshown
      refine ⟨by omega, by omega, ?_⟩
      cases hbody : f.body with
      | data n' =>
          simp only [hbody] at h
          cases hdec : n'.decode id with
          | error c =>
              rw [hdec] at h
              cases h
          | ok n'' =>
              rw [hdec] at h
              cases h
              exact Node.readable_of_decode hdec
      | metaPage image =>
          simp only [hbody] at h
          cases h
      | freelist next ids =>
          simp only [hbody] at h
          cases h

/-! ## Operations that only read -/

/-- Only the cache moves. -/
def Looks (p : Pager Node) (_ : List Unit) (p' : Pager Node) : Prop := Pager.Peeks p p'

theorem Looks.trans {a b c : Pager Node} {l l' : List Unit} (h₁ : Looks a l b) (h₂ : Looks b l' c) :
    Looks a (l ++ l') c := Pager.Peeks.trans h₁ h₂

/-- The operation returns or fails as `out` says, and only moves the cache. -/
def Reports {β : Type} (x : BTreeM β) (p : Pager Node) (out : Except BTreeError β) : Prop :=
  Simulates Looks x p out fun a b _ _ => a = b

namespace Reports

variable {β γ : Type} {x : BTreeM β} {p p' : Pager Node}

/-- A sequence of reads reports what its parts report. -/
theorem bind {f : β → BTreeM γ} {out : Except BTreeError β} {g : β → Except BTreeError γ}
    (hx : Reports x p out)
    (hf : ∀ a p', Pager.Peeks p p' → out = .ok a → Reports (f a) p' (g a)) :
    Reports (x >>= f) p (out >>= g) := by
  unfold Reports at hx hf ⊢
  refine Simulates.bind (R := Looks) Looks.trans hx.attach ?_
  rintro a _ _ p' hpeeks ⟨hout, rfl⟩
  exact hf a p' hpeeks hout

theorem ret (hc : p.Coherent) (b : β) : Reports (pure b) p (.ok b) :=
  Simulates.ret (Pager.Peeks.refl hc) rfl

theorem throw (hc : p.Coherent) (e : BTreeError) : Reports (throw e : BTreeM β) p (.error e) :=
  ⟨p, [], rfl, Pager.Peeks.refl hc⟩

theorem run_ok {b : β} (h : Reports x p (.ok b)) : ∃ p', x p = .ok b p' ∧ Pager.Peeks p p' := by
  obtain ⟨b', p', _, hrun, hpeeks, rfl⟩ := h
  exact ⟨p', hrun, hpeeks⟩

theorem run_error {e : BTreeError} (h : Reports x p (.error e)) :
    ∃ p', x p = .error e p' ∧ Pager.Peeks p p' := by
  obtain ⟨p', _, hrun, hpeeks⟩ := h
  exact ⟨p', hrun, hpeeks⟩

/-- A run that returned is the one reported. -/
theorem of_run {out : Except BTreeError β} {b : β} (h : Reports x p out) (hrun : x p = .ok b p') :
    out = .ok b ∧ Pager.Peeks p p' := by
  cases out with
  | error e =>
      obtain ⟨p₁, hrun', -⟩ := h.run_error
      rw [hrun] at hrun'
      cases hrun'
  | ok b' =>
      obtain ⟨p₁, hrun', hpeeks⟩ := h.run_ok
      rw [hrun] at hrun'
      cases hrun'
      exact ⟨rfl, hpeeks⟩

end Reports

/-- Reading a node reports what the page shows. -/
theorem readNode_reports {p : Pager Node} (hc : p.Coherent) (id : Nat) :
    Reports (readNode id) p (nodeAt p id) := by
  have hread := Pager.readPage_peeks hc id
  unfold nodeAt
  cases hshown : p.shown id with
  | error e =>
      rw [hshown] at hread
      obtain ⟨p', tr, hrun, hpeeks⟩ := hread
      exact ⟨p', tr, bind_of_error (liftPager_of_error hrun), hpeeks⟩
  | ok f =>
      rw [hshown] at hread
      obtain ⟨f', p', tr, hrun, hpeeks, rfl⟩ := hread
      have hlift := liftPager_of_ok hrun
      simp only
      -- a page of another kind shows no node, and the read fails the same way
      cases hbody : f'.body with
      | data n =>
          cases hdec : n.decode id with
          | ok n' =>
              simp only [hdec]
              refine ⟨n', p', tr, ?_, hpeeks, rfl⟩
              unfold readNode
              rw [bind_of_ok hlift, hbody]
              simp only [hdec]
              rfl
          | error c =>
              simp only [hdec]
              refine ⟨p', tr, ?_, hpeeks⟩
              unfold readNode
              rw [bind_of_ok hlift, hbody]
              simp only [hdec]
              rfl
      | metaPage image =>
          refine ⟨p', tr, ?_, hpeeks⟩
          unfold readNode
          rw [bind_of_ok hlift, hbody]
          rfl
      | freelist next ids =>
          refine ⟨p', tr, ?_, hpeeks⟩
          unfold readNode
          rw [bind_of_ok hlift, hbody]
          rfl

/-! ## Trees a store holds -/

/-- Every node of the tree is what the page of its label shows. -/
def Stands (store : Store) : {h : Nat} → Tree Nat h → Prop
  | 0, t => store (LeafNode.label t) = .ok (Tree.toNode (h := 0) t)
  | h + 1, t => store (InnerNode.label t) = .ok (Tree.toNode (h := h + 1) t) ∧
      ∀ c ∈ InnerNode.children t, Stands store c

section Stands

variable {store : Store} {p p' : Pager Node} {h : Nat} {lo hi : Option Bytes}

theorem Stands.root {t : Tree Nat h} (ht : Stands store t) : store t.label = .ok t.toNode := by
  cases h with
  | zero => exact ht
  | succ h => exact ht.1

/-- A held tree stands in what the pages show. -/
theorem Held.stands {t : Tree Nat h} (ht : Held p t) (hpre : t.Pre lo hi) :
    Stands (nodeAt p) t := by
  have hnode : ∀ {h : Nat} {lo hi : Option Bytes} {t : Tree Nat h}, Held p t → t.Pre lo hi →
      nodeAt p t.label = .ok t.toNode := by
    intro h lo hi t ht hpre
    obtain ⟨⟨hview, hlo, hhi, -⟩, -⟩ := held_iff.mp ht
    have hshown : p.shown t.label = .ok { id := t.label, body := .data t.toNode } := by
      unfold Pager.shown Pager.fetched
      rw [if_neg (by omega), hview]
    unfold nodeAt
    rw [hshown]
    simp only [Node.decode_of_readable (ht.readable hpre)]
  induction h generalizing lo hi with
  | zero => exact hnode ht hpre
  | succ h ih =>
      refine ⟨hnode ht hpre, fun c hc => ?_⟩
      obtain ⟨a, b, hwf⟩ := (Tree.pre_node.mp hpre).2.exists_bounds hc
      exact ih (ht.2 c hc) hwf.pre

/-- Reading the root of a tree that stands. -/
theorem Stands.read {t : Tree Nat h} (ht : Stands (nodeAt p) t) (hc : p.Coherent) :
    ∃ p', readNode t.label p = .ok t.toNode p' ∧ Pager.Peeks p p' := by
  have hread := readNode_reports hc t.label
  rw [ht.root] at hread
  exact hread.run_ok

theorem Stands.peeks {t : Tree Nat h} (ht : Stands (nodeAt p) t) (h : Pager.Peeks p p') :
    Stands (nodeAt p') t := by
  rw [nodeAt_peeks h]
  exact ht

/-- What a key leads to in a sorted leaf. -/
theorem leafGet_eq {es : List Entry} (hs : OrdMap.Sorted es) (i : Nat) (key : Bytes) :
    (leaf i es).toNode.leafGet key = OrdMap.find key es := by
  rw [Tree.toNode_leaf, Node.leafGet]
  rcases find_none_or_erase hs key with ⟨hfind, j, hb⟩ | ⟨v, hfind, j, hb, hv, -, -⟩
  · rw [hb, hfind]
  · rw [hb, hfind]
    exact hv

/-- Looking a key up follows the separators to the only leaf that may bind it. -/
theorem lookupLoop_stands {s : Tree Nat h} {key : Bytes} (hc : p.Coherent)
    (hs : Stands (nodeAt p) s) (hord : s.Ordered lo hi) (hkey : InRange lo hi key) {fuel : Nat}
    (hfuel : h < fuel) :
    ∃ p', lookupLoop key fuel s.label p = .ok (OrdMap.find key s.entries) p' ∧
      Pager.Peeks p p' := by
  induction h generalizing p lo hi fuel with
  | zero =>
      obtain ⟨fuel, rfl⟩ : ∃ f, fuel = f + 1 := ⟨fuel - 1, by omega⟩
      obtain ⟨i, es, rfl⟩ := s.exists_leaf
      obtain ⟨p₁, hread, hpeeks⟩ := hs.read hc
      refine ⟨p₁, ?_, hpeeks⟩
      rw [lookupLoop, Lib.bind_of_ok hread, leafGet_eq (Tree.ordered_leaf.mp hord).1]
      rfl
  | succ h ih =>
      obtain ⟨fuel, rfl⟩ : ∃ f, fuel = f + 1 := ⟨fuel - 1, by omega⟩
      obtain ⟨i, ks, cs, rfl⟩ := s.exists_node
      obtain ⟨p₁, hread, hpeeks⟩ := hs.read hc
      obtain ⟨-, -, cs₁, c, cs₃, a, b, -, hcs, -, hl₂, hranged, hkey', hbelow, habove, -⟩ :=
        Tree.exists_routed_of (fun _ _ _ hc => hc.ordered.entries_sorted.2)
          (Tree.ordered_node.mp hord) hkey
      have hroute : (node i ks cs).toNode.route key = some c.label := by
        rw [Tree.toNode_node, Node.route, hcs, ← hl₂]
        simp
      have hchild : Stands (nodeAt p₁) c := (hs.2 c (by rw [hcs]; simp [node])).peeks hpeeks
      obtain ⟨p₂, hrun, hpeeks₂⟩ :=
        ih hpeeks.coherent hchild hranged.ordered hkey' (Nat.lt_of_succ_lt_succ hfuel)
      refine ⟨p₂, ?_, hpeeks.trans hpeeks₂⟩
      rw [lookupLoop, Lib.bind_of_ok hread, hroute]
      simp only [hrun, Tree.entries_node, hcs, List.flatMap_append, List.flatMap_singleton]
      rw [OrdMap.find_middle hbelow habove]

end Stands

end Edb.BTree
