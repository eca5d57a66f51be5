import Edb.BTree.Check

/-!
# Soundness of the structural check

A root that passes the check is the root of a tree that stands in the pages (`Certified`): the
calls that returned build it from the leaves up. That its pages are distinct is not checked: it
follows from the ranges, since two pages that show the same node would both hold its keys
(`Fits.meet`). Following child indices, summing up the leaves and looking a key up are then read
off the tree.
-/

namespace Edb.BTree

open Edb.Lib
open BTree.Tree (leaf node Ranged)

/-! ## Walking the pages -/

/-- The page that the child indices of a path lead to. -/
def follow (store : Store) : Nat → List Nat → Option Nat
  | id, [] => some id
  | id, i :: path =>
      match store id with
      | .ok (.internal _ children) => children[i]?.bind fun c => follow store c path
      | _ => none

/-- The bindings of the leaves below a page, left to right, down to `fuel` levels. -/
def inOrder (store : Store) : Nat → Nat → List Entry
  | 0, _ => []
  | fuel + 1, id =>
      match store id with
      | .ok (.leaf keys vals) => keys.zip vals
      | .ok (.internal _ children) => children.flatMap (inOrder store fuel)
      | .error _ => []

section Stands

variable {store : Store} {h : Nat} {lo hi : Option Bytes}

theorem follow_node {i j : Nat} {ks : List Bytes} {cs : List (Tree Nat h)} {path : List Nat}
    (hs : Stands store (node i ks cs)) :
    follow store i (j :: path) = cs[j]?.bind fun c => follow store c.label path := by
  have hroot : store i = .ok (.internal ks (cs.map Tree.label)) := hs.root
  rw [follow, hroot]
  simp only [List.getElem?_map]
  cases cs[j]? <;> rfl

theorem follow_leaf {i j : Nat} {es : List Entry} {path : List Nat}
    (hs : Stands store (leaf i es)) : follow store i (j :: path) = none := by
  have hroot : store i = .ok (.leaf (es.map Prod.fst) (es.map Prod.snd)) := hs.root
  rw [follow, hroot]

/-- A path down a tree that stands leads to one of its pages. -/
theorem mem_labels_of_follow {t : Tree Nat h} (hs : Stands store t) {path : List Nat} {id : Nat}
    (hpath : follow store t.label path = some id) : id ∈ t.labels := by
  induction h generalizing path with
  | zero =>
      obtain ⟨i, es, rfl⟩ := t.exists_leaf
      cases path with
      | nil =>
          cases hpath
          exact List.mem_singleton_self _
      | cons j path =>
          rw [Tree.label_leaf, follow_leaf hs] at hpath
          cases hpath
  | succ h ih =>
      obtain ⟨i, ks, cs, rfl⟩ := t.exists_node
      cases path with
      | nil =>
          cases hpath
          exact List.mem_cons_self ..
      | cons j path =>
          rw [Tree.label_node, follow_node hs] at hpath
          obtain ⟨c, hc, hpath⟩ := Option.bind_eq_some_iff.mp hpath
          have hmem := List.mem_of_getElem? hc
          exact List.mem_cons_of_mem _ (List.mem_flatMap.mpr ⟨c, hmem, ih (hs.2 c hmem) hpath⟩)

/-- Every page of a tree that stands is at the end of a path. -/
theorem exists_follow {t : Tree Nat h} (hs : Stands store t) {id : Nat} (hid : id ∈ t.labels) :
    ∃ path, follow store t.label path = some id := by
  induction h with
  | zero =>
      obtain ⟨i, es, rfl⟩ := t.exists_leaf
      cases List.mem_singleton.mp hid
      exact ⟨[], rfl⟩
  | succ h ih =>
      obtain ⟨i, ks, cs, rfl⟩ := t.exists_node
      rw [Tree.labels_node] at hid
      rcases List.mem_cons.mp hid with rfl | hid
      · exact ⟨[], rfl⟩
      · obtain ⟨c, hc, hid⟩ := List.mem_flatMap.mp hid
        obtain ⟨j, hj⟩ := List.mem_iff_getElem?.mp hc
        obtain ⟨path, hpath⟩ := ih (hs.2 c hc) hid
        refine ⟨j :: path, ?_⟩
        rw [Tree.label_node, follow_node hs, hj]
        exact hpath

/-- Where the labels are distinct, two paths to a page are the same. -/
theorem follow_unique {t : Tree Nat h} (hs : Stands store t) (hnodup : t.labels.Nodup)
    {path path' : List Nat} {id : Nat} (hpath : follow store t.label path = some id)
    (hpath' : follow store t.label path' = some id) : path = path' := by
  induction h generalizing path path' with
  | zero =>
      obtain ⟨i, es, rfl⟩ := t.exists_leaf
      have hnil : ∀ {q : List Nat}, follow store (leaf i es).label q = some id → q = [] := by
        intro q hq
        cases q with
        | nil => rfl
        | cons j q =>
            rw [Tree.label_leaf, follow_leaf hs] at hq
            cases hq
      rw [hnil hpath, hnil hpath']
  | succ h ih =>
      obtain ⟨i, ks, cs, rfl⟩ := t.exists_node
      rw [Tree.labels_node] at hnodup
      obtain ⟨hroot, hkids⟩ := List.nodup_cons.mp hnodup
      obtain ⟨hchild, hdisj⟩ := List.nodup_flatMap.mp hkids
      -- a path that leaves the root ends at a label of the child it enters
      have hcons : ∀ {j : Nat} {q : List Nat}, follow store (node i ks cs).label (j :: q) =
          some id → ∃ c, cs[j]? = some c ∧ follow store c.label q = some id ∧ id ∈ c.labels := by
        intro j q hq
        rw [Tree.label_node, follow_node hs] at hq
        obtain ⟨c, hc, hq⟩ := Option.bind_eq_some_iff.mp hq
        exact ⟨c, hc, hq, mem_labels_of_follow (hs.2 c (List.mem_of_getElem? hc)) hq⟩
      have hback : ∀ {j : Nat} {q : List Nat},
          follow store (node i ks cs).label (j :: q) = some id → id ≠ i := by
        rintro j q hq rfl
        obtain ⟨c, hc, -, hid⟩ := hcons hq
        exact hroot (List.mem_flatMap.mpr ⟨c, List.mem_of_getElem? hc, hid⟩)
      match path, path' with
      | [], [] => rfl
      | [], j :: q' =>
          cases hpath
          exact absurd rfl (hback hpath')
      | j :: q, [] =>
          cases hpath'
          exact absurd rfl (hback hpath)
      | j :: q, j' :: q' =>
          obtain ⟨c, hc, hq, hid⟩ := hcons hpath
          obtain ⟨c', hc', hq', hid'⟩ := hcons hpath'
          obtain ⟨hlt, hget⟩ := List.getElem?_eq_some_iff.mp hc
          obtain ⟨hlt', hget'⟩ := List.getElem?_eq_some_iff.mp hc'
          rw [List.pairwise_iff_getElem] at hdisj
          have hj : j = j' := by
            rcases lt_trichotomy j j' with hjj | hjj | hjj
            · have := hdisj j j' hlt hlt' hjj
              rw [hget, hget'] at this
              exact absurd hid' (this hid)
            · exact hjj
            · have := hdisj j' j hlt' hlt hjj
              rw [hget, hget'] at this
              exact absurd hid (this hid')
          subst hj
          cases hc.symm.trans hc'
          have hmem := List.mem_of_getElem? hc
          rw [ih (hs.2 c hmem) (hchild c hmem) hq hq']

/-- The traversal lists the bindings of the tree. -/
theorem inOrder_eq {t : Tree Nat h} (hs : Stands store t) {fuel : Nat} (hfuel : h < fuel) :
    inOrder store fuel t.label = t.entries := by
  induction h generalizing fuel with
  | zero =>
      obtain ⟨fuel, rfl⟩ : ∃ f, fuel = f + 1 := ⟨fuel - 1, by omega⟩
      obtain ⟨i, es, rfl⟩ := t.exists_leaf
      have hroot : store i = .ok (.leaf (es.map Prod.fst) (es.map Prod.snd)) := hs.root
      rw [Tree.label_leaf, inOrder, hroot]
      exact (List.zip_of_prod rfl rfl).symm
  | succ h ih =>
      obtain ⟨fuel, rfl⟩ : ∃ f, fuel = f + 1 := ⟨fuel - 1, by omega⟩
      obtain ⟨i, ks, cs, rfl⟩ := t.exists_node
      have hroot : store i = .ok (.internal ks (cs.map Tree.label)) := hs.root
      rw [Tree.label_node, inOrder, hroot, Tree.entries_node]
      simp only [List.flatMap_map]
      exact List.flatMap_congr fun c hc => ih (hs.2 c hc) (Nat.lt_of_succ_lt_succ hfuel)

/-! ## Distinct pages -/

theorem Fits.nested {id : Nat} {a b : Option Bytes} (hf : Fits store (id, a, b))
    (hsub : ∀ k, InRange a b k → InRange lo hi k) : Fits store (id, lo, hi) := by
  obtain ⟨n, hshow, hne, hall⟩ := hf
  exact ⟨n, hshow, hne, fun k hk => hsub k (hall k hk)⟩

/-- The ranges a page fits have a key in common. -/
theorem Fits.meet {id : Nat} {a b c d : Option Bytes} (h₁ : Fits store (id, a, b))
    (h₂ : Fits store (id, c, d)) : ∃ k, InRange a b k ∧ InRange c d k := by
  obtain ⟨n, hshow, hne, hall⟩ := h₁
  obtain ⟨n', hshow', -, hall'⟩ := h₂
  cases hshow.symm.trans hshow'
  obtain ⟨k, hk⟩ := List.exists_mem_of_ne_nil _ hne
  exact ⟨k, hall k hk, hall' k hk⟩

/-- Every page below the root of a tree fits the range of the tree. -/
theorem Stands.fits {t : Tree Nat h} (hs : Stands store t) (ht : t.Ranged lo hi) :
    ∀ id ∈ t.labels, Fits store (id, lo, hi) := by
  induction h generalizing lo hi with
  | zero =>
      obtain ⟨i, es, rfl⟩ := t.exists_leaf
      intro id hid
      cases List.mem_singleton.mp hid
      refine ⟨_, hs.root, fun hnil => ht.full (List.map_eq_nil_iff.mp hnil), fun k hk => ?_⟩
      obtain ⟨e, he, rfl⟩ := List.mem_map.mp hk
      exact (Tree.ordered_leaf.mp ht.ordered).2 e he
  | succ h ih =>
      obtain ⟨i, ks, cs, rfl⟩ := t.exists_node
      have hchain := Tree.ordered_node.mp ht.ordered
      intro id hid
      rcases List.mem_cons.mp hid with rfl | hid
      · exact ⟨_, hs.root, ht.full, fun k hk => (hchain.seps k hk).inRange⟩
      · obtain ⟨c, hc, hid⟩ := List.mem_flatMap.mp hid
        obtain ⟨a, b, hranged, hsub⟩ := hchain.exists_nested hc
        exact (ih (hs.2 c hc) hranged id hid).nested hsub

theorem Tree.Ranged.exists_key {t : Tree Nat h} (hs : Stands store t) (ht : t.Ranged lo hi) :
    ∃ k, InRange lo hi k := by
  have hfits := hs.fits ht t.label (by rw [Tree.labels_eq]; exact List.mem_cons_self ..)
  obtain ⟨k, hk, -⟩ := hfits.meet hfits
  exact ⟨k, hk⟩

/-- A page is the root of trees of one height only. -/
theorem Stands.height_eq {h' : Nat} {t : Tree Nat h} {t' : Tree Nat h'} {lo' hi' : Option Bytes}
    (hs : Stands store t) (hs' : Stands store t') (ht : t.Ordered lo hi) (ht' : t'.Ordered lo' hi')
    (hlabel : t.label = t'.label) : h = h' := by
  induction h generalizing h' lo hi lo' hi' with
  | zero =>
      have hroot := hs.root
      rw [hlabel, hs'.root] at hroot
      cases h' with
      | zero => rfl
      | succ h' => cases hroot
  | succ h ih =>
      have hroot := hs.root
      rw [hlabel, hs'.root] at hroot
      cases h' with
      | zero => cases hroot
      | succ h' =>
          obtain ⟨i, ks, cs, rfl⟩ := t.exists_node
          obtain ⟨i', ks', cs', rfl⟩ := t'.exists_node
          obtain ⟨-, hcs⟩ := Node.internal.inj (Except.ok.inj hroot)
          have hchain := Tree.ordered_node.mp ht
          have hchain' := Tree.ordered_node.mp ht'
          match cs, cs', hs, hs', hchain, hchain', hcs with
          | [], _, _, _, hchain, _, _ => cases hchain.length
          | _, [], _, _, _, hchain', _ => cases hchain'.length
          | c :: _, c' :: _, hs, hs', hchain, hchain', hcs =>
              obtain ⟨hc, -⟩ := List.cons.inj hcs
              obtain ⟨a, b, hranged⟩ := hchain.exists_bounds (List.mem_cons_self ..)
              obtain ⟨a', b', hranged'⟩ := hchain'.exists_bounds (List.mem_cons_self ..)
              rw [ih (hs.2 c (List.mem_cons_self ..)) (hs'.2 c' (List.mem_cons_self ..))
                hranged.ordered hranged'.ordered hc.symm]

/-- Every page of a tree is the root of a subtree. -/
theorem Stands.exists_subtree {t : Tree Nat h} (hs : Stands store t) (ht : t.Ordered lo hi)
    {id : Nat} (hid : id ∈ t.labels) : ∃ h', ∃ s : Tree Nat h', h' ≤ h ∧ s.label = id ∧
      Stands store s ∧ ∃ a b, s.Ordered a b := by
  induction h generalizing lo hi with
  | zero =>
      obtain ⟨i, es, rfl⟩ := t.exists_leaf
      exact ⟨0, leaf i es, le_refl 0, (List.mem_singleton.mp hid).symm, hs, lo, hi, ht⟩
  | succ h ih =>
      obtain ⟨i, ks, cs, rfl⟩ := t.exists_node
      rcases List.mem_cons.mp hid with rfl | hid
      · exact ⟨h + 1, node _ ks cs, le_refl _, rfl, hs, lo, hi, ht⟩
      · obtain ⟨c, hc, hid⟩ := List.mem_flatMap.mp hid
        obtain ⟨a, b, hranged⟩ := (Tree.ordered_node.mp ht).exists_bounds hc
        obtain ⟨h', s, hle, hs'⟩ := ih (hs.2 c hc) hranged.ordered hid
        exact ⟨h', s, Nat.le_succ_of_le hle, hs'⟩

/-- The children of a node share no page: their ranges are disjoint. -/
theorem flatMap_labels_nodup {ks : List Bytes} {cs : List (Tree Nat h)}
    (hchain : Chain Ranged lo ks cs hi) (hs : ∀ c ∈ cs, Stands store c)
    (hnodup : ∀ c ∈ cs, c.labels.Nodup) : (cs.flatMap Tree.labels).Nodup := by
  induction ks generalizing lo cs with
  | nil =>
      match cs, hchain with
      | [c], _ =>
          rw [List.flatMap_singleton]
          exact hnodup c (List.mem_singleton_self c)
  | cons k ks ih =>
      match cs, hchain with
      | c :: cs, hchain =>
          obtain ⟨-, hc, hrest⟩ := Chain.cons.mp hchain
          obtain ⟨hsc, hscs⟩ := List.forall_mem_cons.mp hs
          obtain ⟨hnc, hncs⟩ := List.forall_mem_cons.mp hnodup
          rw [List.flatMap_cons, List.nodup_append']
          refine ⟨hnc, ih hrest hscs hncs, fun id hid hid' => ?_⟩
          obtain ⟨c', hc', hid'⟩ := List.mem_flatMap.mp hid'
          obtain ⟨a, b, hranged, hsub⟩ := hrest.exists_nested hc'
          obtain ⟨x, hx, hx'⟩ := (hsc.fits hc id hid).meet
            (((hscs c' hc').fits hranged id hid').nested hsub)
          exact absurd (hx.2 k rfl) (not_lt.mpr (hx'.1 k rfl))

/-- The pages of a tree that stands are distinct. -/
theorem Stands.labels_nodup {t : Tree Nat h} (hs : Stands store t) (ht : t.Ordered lo hi) :
    t.labels.Nodup := by
  induction h generalizing lo hi with
  | zero => exact List.nodup_singleton _
  | succ h ih =>
      obtain ⟨i, ks, cs, rfl⟩ := t.exists_node
      have hchain := Tree.ordered_node.mp ht
      rw [Tree.labels_node, List.nodup_cons]
      constructor
      · -- a subtree with the root's label would be as high as the whole tree
        intro hid
        obtain ⟨c, hc, hid⟩ := List.mem_flatMap.mp hid
        obtain ⟨a, b, hranged⟩ := hchain.exists_bounds hc
        obtain ⟨h', s, hle, hlabel, hs', a', b', hord⟩ :=
          (hs.2 c hc).exists_subtree hranged.ordered hid
        have := hs.height_eq hs' ht hord hlabel.symm
        omega
      · refine flatMap_labels_nodup hchain hs.2 fun c hc => ?_
        obtain ⟨a, b, hranged⟩ := hchain.exists_bounds hc
        exact ih (hs.2 c hc) hranged.ordered

end Stands

/-! ## The tree a check builds -/

section Certified

variable {store : Store} {fuel : Nat} {lo hi : Option Bytes}

/-- The check of `v` has read the tree `t` and reports its dimensions. -/
structure Certified (store : Store) (fuel : Nat) (v : Visit) (r : Nat × Nat × Nat) {h : Nat}
    (t : Tree Nat h) : Prop where
  label : t.label = v.1
  stands : Stands store t
  ordered : t.Ordered v.2.1 v.2.2
  height : h < fuel
  depth : r.1 = h + 1
  entries : r.2.1 = t.entries.length
  nodes : r.2.2 = t.labels.length

theorem joinDepth_eq_ok {acc acc' : Option Nat × Nat × Nat} {r : Nat × Nat × Nat} :
    joinDepth acc r = .ok acc' ↔
      (∀ d ∈ acc.1, d = r.1) ∧ acc' = (some r.1, acc.2.1 + r.2.1, acc.2.2 + r.2.2) := by
  obtain ⟨o, e, n⟩ := acc
  cases o with
  | none => simp [joinDepth, eq_comm]
  | some d =>
      by_cases hd : d = r.1
      · simp [joinDepth, hd, eq_comm]
      · simp [joinDepth, hd]

/-- The children of a node, each of which passed: their trees are of one height and split the
node's range. A separator lies strictly above the lower bound because the child before it holds a
key. -/
theorem exists_children
    (hchild : ∀ v r, checkRec store fuel v.1 v.2.1 v.2.2 false = .ok r →
      ∃ h, ∃ t : Tree Nat h, Certified store fuel v r t ∧ t.Full)
    {keys : List Bytes} {children : List Nat} {acc r : Option Nat × Nat × Nat}
    (hlen : children.length = keys.length + 1) (hin : ∀ k ∈ keys, InRange lo hi k)
    (hasc : keys.Pairwise (· < ·))
    (hrun : (childBounds lo hi keys children).foldlM (checkStep store fuel) acc = .ok r) :
    ∃ h, ∃ cs : List (Tree Nat h), cs.map Tree.label = children ∧ (∀ c ∈ cs, Stands store c) ∧
      Chain Ranged lo keys cs hi ∧ h < fuel ∧ (∀ d ∈ acc.1, d = h + 1) ∧
      r = (some (h + 1), acc.2.1 + (cs.flatMap Tree.entries).length,
        acc.2.2 + (cs.flatMap Tree.labels).length) := by
  induction keys generalizing lo children acc with
  | nil =>
      match children, hlen with
      | [child], _ =>
          rw [childBounds_single, List.foldlM_cons] at hrun
          obtain ⟨acc', hstep, hrun⟩ := Result.bind_eq_ok.mp hrun
          cases hrun
          obtain ⟨r', hcheck, hjoin⟩ := Result.bind_eq_ok.mp hstep
          obtain ⟨hd, rfl⟩ := joinDepth_eq_ok.mp hjoin
          obtain ⟨h, t, ht, hfull⟩ := hchild (child, lo, hi) r' hcheck
          refine ⟨h, [t], by rw [List.map_singleton, ht.label], ?_, ⟨ht.ordered, hfull⟩, ht.height,
            fun d hd' => (hd d hd').trans ht.depth, ?_⟩
          · exact fun c hc => List.mem_singleton.mp hc ▸ ht.stands
          · rw [ht.depth, ht.entries, ht.nodes, List.flatMap_singleton, List.flatMap_singleton]
  | cons k keys ih =>
      match children, hlen with
      | child :: children, hlen =>
          rw [childBounds_cons, List.foldlM_cons] at hrun
          obtain ⟨acc', hstep, hrun⟩ := Result.bind_eq_ok.mp hrun
          obtain ⟨r', hcheck, hjoin⟩ := Result.bind_eq_ok.mp hstep
          obtain ⟨hd, rfl⟩ := joinDepth_eq_ok.mp hjoin
          obtain ⟨h, t, ht, hfull⟩ := hchild (child, lo, some k) r' hcheck
          obtain ⟨hk, hin⟩ := List.forall_mem_cons.mp hin
          obtain ⟨hlt, hasc⟩ := List.pairwise_cons.mp hasc
          have hin' : ∀ k' ∈ keys, InRange (some k) hi k' := fun k' hk' =>
            ⟨fun l hl => by cases hl; exact le_of_lt (hlt k' hk'), (hin k' hk').2⟩
          obtain ⟨h', cs, hcs, hstands, hchain, hfuel, hd', rfl⟩ :=
            ih (by simpa using hlen) hin' hasc hrun
          -- the depth so far is that of the first child, and the rest agree with it
          have hh : h = h' := by
            have := hd' r'.1 rfl
            rw [ht.depth] at this
            omega
          subst hh
          have hranged : Ranged lo (some k) t := ⟨ht.ordered, hfull⟩
          obtain ⟨x, hx⟩ := hranged.exists_key ht.stands
          have hsep : SepIn lo hi k :=
            ⟨fun l hl => lt_of_le_of_lt (hx.1 l hl) (hx.2 k rfl), hk.2⟩
          refine ⟨h, t :: cs, by rw [List.map_cons, ht.label, hcs], ?_,
            Chain.cons.mpr ⟨hsep, hranged, hchain⟩, hfuel,
            fun d hd'' => (hd d hd'').trans ht.depth, ?_⟩
          · exact List.forall_mem_cons.mpr ⟨ht.stands, hstands⟩
          · rw [ht.entries, ht.nodes, List.flatMap_cons, List.flatMap_cons, List.length_append,
              List.length_append, Nat.add_assoc, Nat.add_assoc]

/-- A call that returned has read a tree. -/
theorem exists_certified (hsorted : ∀ id n, store id = .ok n → n.Readable) {id : Nat}
    {isRoot : Bool} {r : Nat × Nat × Nat} (hrun : checkRec store fuel id lo hi isRoot = .ok r) :
    ∃ h, ∃ t : Tree Nat h, Certified store fuel (id, lo, hi) r t ∧
      (isRoot = false ∨ h ≠ 0 → t.Full) := by
  induction fuel generalizing id lo hi isRoot r with
  | zero => cases hrun
  | succ fuel ih =>
      cases hshow : store id with
      | error e =>
          rw [checkRec_error hshow] at hrun
          cases hrun
      | ok n =>
          cases n with
          | leaf keys vals =>
              rcases checkRec_leaf _ _ _ _ hshow with ⟨hne, hlen, hin, hok⟩ | ⟨c, hfail⟩
              · rw [hok] at hrun
                cases hrun
                -- equal lengths: the two lists of the page are one list of entries
                have hfst : (keys.zip vals).map Prod.fst = keys := List.map_fst_zip hlen.le
                have hsnd : (keys.zip vals).map Prod.snd = vals := List.map_snd_zip hlen.ge
                have hasc := (hsorted id _ hshow).2
                refine ⟨0, leaf id (keys.zip vals), ⟨rfl, ?_, ?_, Nat.succ_pos _, rfl, ?_, rfl⟩, ?_⟩
                · change store id = .ok (leaf id (keys.zip vals)).toNode
                  rw [Tree.toNode_leaf, hfst, hsnd, hshow]
                · refine Tree.ordered_leaf.mpr ⟨?_, fun e he => ?_⟩
                  · rw [← hfst] at hasc
                    exact List.pairwise_map.mp hasc
                  · exact hin e.1 (List.of_mem_zip he).1
                · rw [Tree.entries_leaf, List.length_zip, ← hlen, Nat.min_self]
                · intro hroot hnil
                  have hroot : isRoot = false := hroot.resolve_right fun h => h rfl
                  change keys.zip vals = [] at hnil
                  exact hne hroot (by rw [← hfst, hnil]; rfl)
              · rw [hfail] at hrun
                cases hrun
          | internal keys children =>
              rcases checkRec_internal _ _ _ _ hshow with ⟨hrec, hok⟩ | ⟨c, hfail⟩
              · rw [hok] at hrun
                obtain ⟨r', hkids, hr⟩ := Result.bind_eq_ok.mp hrun
                cases hr
                -- the children are certified one after another, at one common height
                obtain ⟨h, cs, hcs, hstands, hchain, hfuel, -, rfl⟩ := exists_children
                  (fun v r hv => by
                    obtain ⟨h, t, ht, hfull⟩ := ih hv
                    exact ⟨h, t, ht, hfull (.inl rfl)⟩)
                  hrec.length hrec.inRange (hsorted id _ hshow).2.2 hkids
                refine ⟨h + 1, node id keys cs, ⟨rfl, ⟨?_, hstands⟩, Tree.ordered_node.mpr hchain,
                  Nat.succ_lt_succ hfuel, rfl, ?_, ?_⟩, fun _ hnil => ?_⟩
                · change store id = .ok (node id keys cs).toNode
                  rw [Tree.toNode_node, hcs, hshow]
                · simp
                · simp
                -- two children at least, so a key between them
                · have h₁ := hrec.two
                  have h₂ := hrec.length
                  change keys = [] at hnil
                  rw [hnil, List.length_nil] at h₂
                  omega
              · rw [hfail] at hrun
                cases hrun

end Certified

/-! ## Soundness -/

section Validate

variable {p p' : Pager Node} {root : Nat} {stats : TreeStats}

/-- The bindings below a page, left to right. -/
def traversal (p : Pager Node) (root : Nat) : List Entry :=
  inOrder (nodeAt p) p.metadata.pageCount root

/-- A validation that returns is a check of the nodes as they are read. -/
theorem validate_eq_ok (hc : p.Coherent) (hrun : validate root p = .ok stats p') :
    checkRec (nodeAt p) p.metadata.pageCount root none none true =
      .ok (stats.height, stats.entries, stats.nodes) ∧ Pager.Peeks p p' := by
  have hcheck := validateRec_reports hc p.metadata.pageCount root none none true
  unfold validate at hrun
  rw [bind_of_ok (fuel_eq p)] at hrun
  obtain ⟨r, p₁, hrec, hrun⟩ := bind_eq_ok.mp hrun
  cases hrun
  exact hcheck.of_run hrec

/-- A root that passes the check is the root of a tree. -/
theorem exists_tree_of_validate (hc : p.Coherent) (hrun : validate root p = .ok stats p') :
    ∃ h, ∃ t : Tree Nat h, Certified (nodeAt p) p.metadata.pageCount (root, none, none)
      (stats.height, stats.entries, stats.nodes) t ∧ (h ≠ 0 → t.Full) := by
  obtain ⟨h, t, ht, hfull⟩ := exists_certified
    (fun id n hn => (nodeAt_eq_ok hn).2.2) (validate_eq_ok hc hrun).1
  exact ⟨h, t, ht, fun hh => hfull (.inr hh)⟩

/-- What a passed check says of the pages below `root`: no page is reached by two paths, the
traversal ascends and is cut short nowhere, the statistics count its entries and the pages
reached, and a lookup finds what the traversal holds. -/
structure Vouched (p : Pager Node) (root : Nat) (stats : TreeStats) : Prop where
  paths : ∀ path path' id, follow (nodeAt p) root path = some id →
    follow (nodeAt p) root path' = some id → path = path'
  sorted : OrdMap.Sorted (traversal p root)
  complete : ∀ fuel, p.metadata.pageCount ≤ fuel →
    inOrder (nodeAt p) fuel root = traversal p root
  entries : stats.entries = (traversal p root).length
  nodes : ∃ ids : List Nat, ids.Nodup ∧
    (∀ id, id ∈ ids ↔ ∃ path, follow (nodeAt p) root path = some id) ∧ stats.nodes = ids.length
  lookup : ∀ q, Pager.Peeks p q → ∀ key, ∃ q',
    lookup root key q = .ok (OrdMap.find key (traversal p root)) q'

/-- **The structural check is sound**, whatever the pages show. -/
theorem validate_sound (hc : p.Coherent) (hrun : validate root p = .ok stats p') :
    Pager.Peeks p p' ∧ Vouched p root stats := by
  refine ⟨(validate_eq_ok hc hrun).2, ?_⟩
  obtain ⟨h, t, ht, -⟩ := exists_tree_of_validate hc hrun
  have hlabel : t.label = root := ht.label
  subst hlabel
  have hnodup := ht.stands.labels_nodup ht.ordered
  have hwalk : ∀ fuel, p.metadata.pageCount ≤ fuel → inOrder (nodeAt p) fuel t.label = t.entries :=
    fun fuel hfuel => inOrder_eq ht.stands (lt_of_lt_of_le ht.height hfuel)
  have htraversal : traversal p t.label = t.entries := hwalk _ le_rfl
  refine ⟨fun path path' id => follow_unique ht.stands hnodup, ?_, ?_, ?_, ?_, ?_⟩
  · rw [htraversal]
    exact ht.ordered.entries_sorted.1
  · intro fuel hfuel
    rw [htraversal, hwalk fuel hfuel]
  · rw [htraversal]
    exact ht.entries
  · exact ⟨t.labels, hnodup, fun id => ⟨exists_follow ht.stands,
      fun ⟨path, hpath⟩ => mem_labels_of_follow ht.stands hpath⟩, ht.nodes⟩
  · intro q hpeeks key
    obtain ⟨q', hlookup, -⟩ := lookupLoop_stands hpeeks.coherent (ht.stands.peeks hpeeks)
      ht.ordered (Shape.inRange_unbounded key)
      (show h < q.metadata.pageCount by rw [peeks_pageCount hpeeks]; exact ht.height)
    refine ⟨q', ?_⟩
    unfold BTree.lookup
    rw [bind_of_ok (fuel_eq q), hlookup, htraversal]

/-- A root with two leaves, and a page that is not part of the tree and lists one of them. -/
def twoLeaves : Pager Node := { Pager.create 0 with
  backend := Backend.ofImage {
    len := 6
    cells := fun id =>
      if id = 2 then some { id := 2, body := .data (.internal [[5]] [3, 4]) }
      else if id = 3 then some { id := 3, body := .data (.leaf [[1]] [[7]]) }
      else if id = 4 then some { id := 4, body := .data (.leaf [[5], [6]] [[8], [9]]) }
      else if id = 5 then some { id := 5, body := .data (.internal [[3]] [3, 3]) }
      else none }
  metadata := { Meta.initial with pageCount := 6 } }

theorem validate_sound_twoLeaves :
    ∃ p', validate 2 twoLeaves = .ok (TreeStats.mk 2 3 3) p' ∧
      Pager.Peeks twoLeaves p' ∧ Vouched twoLeaves 2 (TreeStats.mk 2 3 3) := by
  have hc : twoLeaves.Coherent :=
    ⟨List.nodup_nil, (fun _ _ h => nomatch h), (fun _ _ h => nomatch h)⟩
  exact ⟨_, rfl, validate_sound hc rfl⟩

/-- The page outside lists one child twice, which no range can hold twice. -/
example : ∃ p', validate 5 twoLeaves = .error (.corruption (.separatorMismatch 3)) p' := ⟨_, rfl⟩

end Validate

end Edb.BTree
