import Edb.BTree.Store

/-!
# Reading a held tree

Lookup, the walk over all pages and the structural check, on a tree the pager holds. None of
them changes what any page reads as (`Pager.Reads`).
-/

namespace Edb.BTree

open Edb.Lib
open BTree.Tree (leaf node WF RootWF Pre)

variable {p p' : Pager Node} {h : Nat} {lo hi : Option Bytes} {t : PageTree} {key : Bytes}

theorem Held.reads {s : Tree Nat h} (hs : Held p s) (hr : Pager.Reads p p') : Held p' s :=
  hs.grows hr.grows

theorem Holds.reads (ht : Holds p t) (hr : Pager.Reads p p') : Holds p' t := ht.grows hr.grows

/-! ## Lookup -/

/-- The descent finds the value under the key, if the key is in the bounds of the page. -/
theorem lookupLoop_spec {s : Tree Nat h} (hp : p.Ok) (hs : Held p s) (hpre : s.Pre lo hi)
    (hkey : InRange lo hi key) {fuel : Nat} (hfuel : h < fuel) :
    ∃ p', lookupLoop key fuel s.label p = .ok (OrdMap.find key s.entries) p' ∧
      Pager.Reads p p' := by
  obtain ⟨p', hrun, hpeeks⟩ :=
    lookupLoop_stands hp.coherent (hs.stands hpre) hpre.ordered hkey hfuel
  exact ⟨p', hrun, hpeeks.reads hp⟩

/-- Looking a key up in a held tree returns its binding. -/
theorem lookup_spec (hp : p.Ok) (ht : Holds p t) (key : Bytes) :
    ∃ p', lookup t.root key p = .ok (OrdMap.find key t.entries) p' ∧ Pager.Reads p p' :=
  lookupLoop_spec hp ht.held ht.wf.pre (Shape.inRange_unbounded key) (ht.height_lt hp)

/-! ## The pages of a tree -/

/-- Walking a stack of held trees visits their pages, each once. -/
theorem pagesLoop_spec (ts : List PageTree) (hp : p.Ok)
    (hts : ∀ t ∈ ts, Held p t.2 ∧ ∃ lo hi, t.2.Pre lo hi) {fuel : Nat}
    (hfuel : (ts.flatMap PageTree.pages).length ≤ fuel) (out : List Nat) :
    ∃ l p', pagesLoop fuel (ts.map PageTree.root) out p = .ok (out ++ l) p' ∧
      l.Perm (ts.flatMap PageTree.pages) ∧ Pager.Reads p p' := by
  induction fuel generalizing ts p out with
  | zero =>
      cases ts with
      | nil => exact ⟨[], p, by simp [pagesLoop], List.Perm.refl _, Pager.Reads.refl hp⟩
      | cons t ts =>
          rw [List.flatMap_cons, List.length_append, PageTree.pages, Tree.labels_eq] at hfuel
          simp at hfuel
  | succ fuel ih =>
      cases ts with
      | nil => exact ⟨[], p, by simp [pagesLoop], List.Perm.refl _, Pager.Reads.refl hp⟩
      | cons t ts =>
          obtain ⟨⟨ht, lo, hi, hpre⟩, hrest⟩ := List.forall_mem_cons.mp hts
          obtain ⟨p₁, hread, hreads⟩ := readNode_spec hp ht hpre
          obtain ⟨h, t⟩ := t
          -- the children of the popped node go on the stack, the last one on top
          obtain ⟨kids, hnode, hkids, hperm⟩ : ∃ kids : List PageTree,
              (∀ rest out', pagesLoop (fuel + 1) ((t.label) :: rest) out' p =
                pagesLoop fuel (kids.map PageTree.root ++ rest) (out' ++ [t.label]) p₁) ∧
              (∀ c ∈ kids, Held p c.2 ∧ ∃ lo hi, c.2.Pre lo hi) ∧
              (kids.flatMap PageTree.pages).Perm t.kids := by
            cases h with
            | zero =>
                obtain ⟨i, es, rfl⟩ := t.exists_leaf
                refine ⟨[], fun rest out' => ?_, by simp, List.Perm.refl _⟩
                rw [pagesLoop, Lib.bind_of_ok hread]
                rfl
            | succ h =>
                obtain ⟨i, ks, cs, rfl⟩ := t.exists_node
                obtain ⟨-, hchain⟩ := Tree.pre_node.mp hpre
                refine ⟨cs.reverse.map (Sigma.mk h), fun rest out' => ?_, ?_, ?_⟩
                · rw [pagesLoop, Lib.bind_of_ok hread]
                  simp only [Tree.toNode_node, List.map_map, List.map_reverse]
                  rfl
                · intro c hc
                  obtain ⟨c', hc', rfl⟩ := List.mem_map.mp hc
                  obtain ⟨a, b, hwf⟩ := hchain.exists_bounds (List.mem_reverse.mp hc')
                  exact ⟨ht.2 c' (List.mem_reverse.mp hc'), a, b, hwf.pre⟩
                · rw [List.flatMap_map, Tree.kids_node]
                  exact (List.reverse_perm cs).flatMap_right _
          have hall : ∀ c ∈ kids ++ ts, Held p₁ c.2 ∧ ∃ lo hi, c.2.Pre lo hi := by
            intro c hc
            rcases List.mem_append.mp hc with hc | hc
            · exact ⟨(hkids c hc).1.reads hreads, (hkids c hc).2⟩
            · exact ⟨(hrest c hc).1.reads hreads, (hrest c hc).2⟩
          have hlen := hperm.length_eq
          obtain ⟨l, p₂, hrun, hl, hreads₂⟩ := ih (kids ++ ts) hreads.ok hall (by
            rw [List.flatMap_cons, List.length_append, PageTree.pages, Tree.labels_eq] at hfuel
            rw [List.flatMap_append, List.length_append, hlen]
            simp only [List.length_cons] at hfuel
            omega) (out ++ [t.label])
          refine ⟨t.label :: l, p₂, ?_, ?_, hreads.trans hreads₂⟩
          · rw [List.map_append] at hrun
            change pagesLoop (fuel + 1) (t.label :: ts.map PageTree.root) out p = _
            rw [hnode, hrun, List.append_assoc]
            rfl
          · rw [List.flatMap_cons, PageTree.pages, Tree.labels_eq, List.cons_append]
            refine (hl.trans ?_).cons _
            rw [List.flatMap_append]
            exact hperm.append_right _

/-- `pages` lists the pages of a held tree. -/
theorem pages_spec (hp : p.Ok) (ht : Holds p t) :
    ∃ l p', pages t.root p = .ok l p' ∧ l.Perm t.pages ∧ Pager.Reads p p' := by
  have hlt := length_lt_of_owned hp ht.nodup ht.owned
  obtain ⟨l, p', hrun, hl, hr⟩ := pagesLoop_spec [t] hp
    (by simpa using ⟨ht.held, none, none, ht.wf.pre⟩)
    (show ([t].flatMap PageTree.pages).length ≤ p.metadata.pageCount by simpa using le_of_lt hlt) []
  exact ⟨l, p', hrun, by simpa using hl, hr⟩

/-! ## The structural check -/

theorem inBounds_iff {k : Bytes} : inBounds lo hi k = true ↔ InRange lo hi k := by
  cases lo <;> cases hi <;> simp [inBounds, InRange]

theorem all_inBounds {ks : List Bytes} (hks : ∀ k ∈ ks, InRange lo hi k) :
    ks.all (inBounds lo hi) = true :=
  List.all_eq_true.mpr fun k hk => inBounds_iff.mpr (hks k hk)

theorem childBounds_single (lo hi : Option Bytes) (c : Nat) :
    childBounds lo hi [] [c] = [(c, lo, hi)] := rfl

theorem childBounds_cons (lo hi : Option Bytes) (k : Bytes) (ks : List Bytes) (c : Nat)
    (cs : List Nat) : childBounds lo hi (k :: ks) (c :: cs) =
      (c, lo, some k) :: childBounds (some k) hi ks cs := by
  unfold childBounds
  rw [List.zipIdx_cons, List.map_cons, List.zipIdx_succ, List.map_map]
  congr 1
  refine List.map_congr_left fun ⟨c', i⟩ _ => ?_
  cases i with
  | zero => cases ks <;> simp
  | succ i => simp

/-- The check of one child, in the loop over the children of a node. -/
def validateStep (fuel : Nat) (acc : Option Nat × Nat × Nat)
    (b : Nat × Option Bytes × Option Bytes) : BTreeM (Option Nat × Nat × Nat) := do
  joinChild acc (← validateRec fuel b.1 b.2.1 b.2.2 false)

/-- A child that validates at the depth of its siblings adds its entries and its pages. -/
theorem validateStep_of_ok {fuel d e n : Nat} {acc : Option Nat × Nat × Nat}
    {b : Nat × Option Bytes × Option Bytes}
    (hrec : validateRec fuel b.1 b.2.1 b.2.2 false p = .ok (d, e, n) p')
    (hacc : ∀ d' ∈ acc.1, d' = d) :
    validateStep fuel acc b p = .ok (some d, acc.2.1 + e, acc.2.2 + n) p' := by
  unfold validateStep
  rw [Lib.bind_of_ok hrec]
  obtain ⟨o, e', n'⟩ := acc
  cases o with
  | none => rfl
  | some d' =>
      have := hacc d' rfl
      subst this
      simp [joinChild]

/-- Checking the children one after the other, given the check of one child. -/
theorem validateChildren_spec {fuel : Nat}
    (hchild : ∀ {p : Pager Node} {a b : Option Bytes} {c : Tree Nat h}, p.Ok → Held p c →
      c.WF a b → ∃ p', validateRec fuel c.label a b false p =
        .ok (h + 1, c.entries.length, c.labels.length) p' ∧ Pager.Reads p p')
    {ks : List Bytes} {cs : List (Tree Nat h)} (hchain : Chain WF lo ks cs hi) (hp : p.Ok)
    (hcs : ∀ c ∈ cs, Held p c) (acc : Option Nat × Nat × Nat) (hacc : ∀ d ∈ acc.1, d = h + 1) :
    ∃ p', (childBounds lo hi ks (cs.map Tree.label)).foldlM (validateStep fuel) acc p =
      .ok (some (h + 1), acc.2.1 + (cs.flatMap Tree.entries).length,
        acc.2.2 + (cs.flatMap Tree.labels).length) p' ∧ Pager.Reads p p' := by
  induction ks generalizing lo cs p acc with
  | nil =>
      match cs, hchain with
      | [c], hchain =>
          obtain ⟨p₁, hrec, hr⟩ := hchild hp (hcs c (by simp)) (Chain.single.mp hchain)
          refine ⟨p₁, ?_, hr⟩
          rw [List.map_singleton, childBounds_single, List.foldlM_cons,
            Lib.bind_of_ok (validateStep_of_ok hrec hacc)]
          simp
  | cons k ks ih =>
      match cs, hchain with
      | c :: cs, hchain =>
          obtain ⟨-, hc, hrest⟩ := Chain.cons.mp hchain
          obtain ⟨p₁, hrec, hr⟩ := hchild hp (hcs c (by simp)) hc
          obtain ⟨p₂, hrun, hr₂⟩ := ih hrest hr.ok
            (fun c' hc' => (hcs c' (List.mem_cons_of_mem _ hc')).reads hr)
            (some (h + 1), acc.2.1 + c.entries.length, acc.2.2 + c.labels.length)
            (by rintro d ⟨⟩; rfl)
          refine ⟨p₂, ?_, hr.trans hr₂⟩
          rw [List.map_cons, childBounds_cons, List.foldlM_cons,
            Lib.bind_of_ok (validateStep_of_ok hrec hacc), hrun]
          simp [Nat.add_assoc]

/-- A held tree that is full enough validates, with its height, its entries and its pages. -/
theorem validateRec_spec {s : Tree Nat h} (hp : p.Ok) (hs : Held p s) (hpre : s.Pre lo hi)
    {isRoot : Bool} (hfull : isRoot = false ∨ h ≠ 0 → s.Full) {fuel : Nat} (hfuel : h < fuel) :
    ∃ p', validateRec fuel s.label lo hi isRoot p =
      .ok (h + 1, s.entries.length, s.labels.length) p' ∧ Pager.Reads p p' := by
  induction h generalizing p lo hi fuel isRoot with
  | zero =>
      obtain ⟨fuel, rfl⟩ : ∃ f, fuel = f + 1 := ⟨fuel - 1, by omega⟩
      obtain ⟨i, es, rfl⟩ := s.exists_leaf
      obtain ⟨p₁, hread, hreads⟩ := readNode_spec hp hs hpre
      refine ⟨p₁, ?_, hreads⟩
      -- only the root may be an empty leaf
      have hempty : (!isRoot && (es.map Prod.fst).isEmpty) = false := by
        cases isRoot with
        | true => rfl
        | false => simpa using (Tree.full_leaf i es).mp (hfull (.inl rfl))
      have hall : (es.map Prod.fst).all (inBounds lo hi) = true :=
        all_inBounds fun k hk => by
          obtain ⟨e, he, rfl⟩ := List.mem_map.mp hk
          exact ((Tree.pre_leaf.mp hpre).2 e he).1
      rw [validateRec, Lib.bind_of_ok hread]
      simp only [Tree.toNode_leaf, hempty, hall, List.length_map]
      simp
  | succ h ih =>
      obtain ⟨fuel, rfl⟩ : ∃ f, fuel = f + 1 := ⟨fuel - 1, by omega⟩
      obtain ⟨i, ks, cs, rfl⟩ := s.exists_node
      obtain ⟨p₁, hread, hreads⟩ := readNode_spec hp hs hpre
      obtain ⟨-, hchain⟩ := Tree.pre_node.mp hpre
      have hlen := hchain.length
      -- an internal node has a key, the root too
      have hpos : 0 < ks.length := List.length_pos_iff.mpr (hfull (.inr (Nat.succ_ne_zero h)))
      have hall : ks.all (inBounds lo hi) = true :=
        all_inBounds fun k hk => (hchain.seps k hk).inRange
      obtain ⟨p₂, hrun, hreads₂⟩ := validateChildren_spec
        (fun hp hc hwf => ih hp hc hwf.pre (fun _ => hwf.full) (Nat.lt_of_succ_lt_succ hfuel))
        hchain hreads.ok (fun c hc => (hs.2 c hc).reads hreads) (none, 0, 0) (by simp)
      refine ⟨p₂, ?_, hreads.trans hreads₂⟩
      rw [validateRec, Lib.bind_of_ok hread]
      simp only [Tree.toNode_node]
      rw [if_neg (by rw [List.length_map]; omega), if_neg (by simp [hall])]
      change (List.foldlM (validateStep fuel) _ _ >>= _) p₁ = _
      rw [Lib.bind_of_ok hrun]
      simp

/-- The structural check accepts a held tree and reports its dimensions. -/
theorem validate_spec (hp : p.Ok) (ht : Holds p t) :
    ∃ p', validate t.root p =
      .ok (TreeStats.mk (t.1 + 1) t.entries.length t.pages.length) p' ∧ Pager.Reads p p' := by
  obtain ⟨p', hrun, hr⟩ := validateRec_spec hp ht.held ht.wf.pre
    (show true = false ∨ t.1 ≠ 0 → t.2.Full from fun hh => ht.wf.full (by simpa using hh))
    (ht.height_lt hp)
  refine ⟨p', ?_, hr⟩
  unfold validate PageTree.root
  rw [Lib.bind_of_ok (fuel_eq p), Lib.bind_of_ok hrun]
  rfl

/-! ## One tree for each root -/

/-- The pages under a root hold one tree of a height. -/
theorem Held.unique {p : Pager Node} {h : Nat} {t t' : Tree Nat h} (ht : Held p t)
    (ht' : Held p t') (hroot : t.label = t'.label) : t = t' := by
  induction h with
  | zero =>
    obtain ⟨i, es, rfl⟩ := t.exists_leaf
    obtain ⟨i', es', rfl⟩ := t'.exists_leaf
    obtain rfl : i = i' := hroot
    have hview := ht.1.symm.trans ht'.1
    obtain ⟨-, hkeys, hvalues⟩ : _ ∧ es.map Prod.fst = es'.map Prod.fst ∧
        es.map Prod.snd = es'.map Prod.snd := by simpa using hview
    have hentries : es = es' :=
      (List.zip_of_prod hkeys hvalues).trans (List.zip_of_prod rfl rfl).symm
    rw [hentries]
  | succ h ih =>
    obtain ⟨i, ks, cs, rfl⟩ := t.exists_node
    obtain ⟨i', ks', cs', rfl⟩ := t'.exists_node
    obtain rfl : i = i' := hroot
    have hview := ht.1.1.symm.trans ht'.1.1
    obtain ⟨-, hkeys, hlabels⟩ : _ ∧ ks = ks' ∧ cs.map Tree.label = cs'.map Tree.label := by
      simpa using hview
    have hchildren : cs = cs' := by
      refine List.ext_getElem (by simpa using congrArg List.length hlabels) fun n hn hn' => ?_
      have hlabel := congrArg (fun l : List Nat => l[n]?) hlabels
      exact ih (ht.2 _ (List.getElem_mem hn)) (ht'.2 _ (List.getElem_mem hn'))
        (by simpa [hn, hn'] using hlabel)
    rw [hkeys, hchildren]

/-- The pages under a root hold one tree. -/
theorem Holds.unique {p : Pager Node} (hp : p.Ok) {t t' : PageTree} (ht : Holds p t)
    (ht' : Holds p t') (hroot : t.root = t'.root) : t = t' := by
  obtain ⟨p₁, hrun, -⟩ := validate_spec hp ht
  obtain ⟨p₂, hrun', -⟩ := validate_spec hp ht'
  rw [hroot, hrun'] at hrun
  obtain ⟨h, t⟩ := t
  obtain ⟨h', t'⟩ := t'
  injection hrun with hstats
  injection hstats with hheight
  obtain rfl : h = h' := Nat.succ.inj hheight.symm
  exact congrArg (Sigma.mk h) (ht.held.unique ht'.held hroot)

/-! ## The structure of the stored nodes -/

/-- The nodes stored from page `id` down are those of a tree of `depth` levels: they fit their
pages, their keys ascend and lie within the bounds, an internal node has a separator and one more
child than separators, and a leaf other than the root has an entry. -/
inductive SoundAt (p : Pager Node) : Bool → Option Bytes → Option Bytes → Nat → Nat → Prop
  | leaf {isRoot : Bool} {lo hi : Option Bytes} {id : Nat} {keys vals : List Bytes} :
      p.view id = some { id := id, body := .data (.leaf keys vals) } →
      (Node.leaf keys vals).encodedLen ≤ cap → keys.length = vals.length →
      keys.Pairwise (· < ·) → (∀ k ∈ keys, InRange lo hi k) → (isRoot = false → keys ≠ []) →
      SoundAt p isRoot lo hi 1 id
  | internal {isRoot : Bool} {lo hi : Option Bytes} {depth id : Nat} {keys : List Bytes}
      {children : List Nat} :
      p.view id = some { id := id, body := .data (.internal keys children) } →
      (Node.internal keys children).encodedLen ≤ cap → 1 ≤ keys.length →
      children.length = keys.length + 1 → keys.Pairwise (· < ·) →
      (∀ k ∈ keys, InRange lo hi k) →
      (∀ b ∈ childBounds lo hi keys children, SoundAt p false b.2.1 b.2.2 depth b.1) →
      SoundAt p isRoot lo hi (depth + 1) id

/-- Each child is checked against the separators on its two sides. -/
theorem exists_of_mem_childBounds {P : Option Bytes → Option Bytes → Tree Nat h → Prop}
    {ks : List Bytes} {cs : List (Tree Nat h)} (hchain : Chain P lo ks cs hi)
    {b : Nat × Option Bytes × Option Bytes}
    (hb : b ∈ childBounds lo hi ks (cs.map Tree.label)) :
    ∃ c ∈ cs, b.1 = c.label ∧ P b.2.1 b.2.2 c := by
  induction ks generalizing lo cs with
  | nil =>
      match cs, hchain with
      | [c], hchain =>
          rw [List.map_singleton, childBounds_single, List.mem_singleton] at hb
          subst hb
          exact ⟨c, by simp, rfl, Chain.single.mp hchain⟩
  | cons k ks ih =>
      match cs, hchain with
      | c :: cs, hchain =>
          obtain ⟨-, hc, hrest⟩ := Chain.cons.mp hchain
          rw [List.map_cons, childBounds_cons] at hb
          rcases List.mem_cons.mp hb with rfl | hb
          · exact ⟨c, by simp, rfl, hc⟩
          · obtain ⟨c', hc', hid, hP⟩ := ih hrest hb
            exact ⟨c', List.mem_cons_of_mem _ hc', hid, hP⟩

/-- A held tree whose pages fit is sound at its root. -/
theorem Held.soundAt {s : Tree Nat h} (hs : Held p s) (hpre : s.Pre lo hi) (hsize : s.size ≤ cap)
    {isRoot : Bool} (hfull : isRoot = false ∨ h ≠ 0 → s.Full) :
    SoundAt p isRoot lo hi (h + 1) s.label := by
  induction h generalizing lo hi isRoot with
  | zero =>
      obtain ⟨i, es, rfl⟩ := s.exists_leaf
      obtain ⟨hsorted, hes⟩ := Tree.pre_leaf.mp hpre
      refine .leaf hs.1 ?_ (by simp) ?_ ?_ ?_
      · exact (Tree.encodedLen_toNode _).trans_le hsize
      · exact List.pairwise_map.mpr hsorted
      · intro k hk
        obtain ⟨e, he, rfl⟩ := List.mem_map.mp hk
        exact (hes e he).1
      · intro hroot hnil
        exact hfull (.inl hroot) (List.map_eq_nil_iff.mp hnil)
  | succ h ih =>
      obtain ⟨i, ks, cs, rfl⟩ := s.exists_node
      obtain ⟨-, hchain⟩ := Tree.pre_node.mp hpre
      refine .internal hs.1.1 ?_ ?_ ?_ hchain.ascending ?_ ?_
      · exact (Tree.encodedLen_toNode _).trans_le hsize
      · exact List.length_pos_iff.mpr (hfull (.inr (Nat.succ_ne_zero h)))
      · rw [List.length_map]
        exact hchain.length
      · exact fun k hk => (hchain.seps k hk).inRange
      · intro b hb
        obtain ⟨c, hc, hid, hwf⟩ := exists_of_mem_childBounds hchain hb
        rw [hid]
        exact ih (hs.2 c hc) hwf.pre hwf.size fun _ => hwf.full

end Edb.BTree
