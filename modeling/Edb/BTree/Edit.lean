import Edb.BTree.Balance

/-!
# Insertion and deletion on shapes

The two recursive algorithms with the pages taken away: they rebuild shapes, and fail where
writing a node would. They are what the algorithms over pages compute (`Edb.BTree.Pages`), so the
outcome of a tree operation depends on the shape of the tree only.

`insertRec_spec` and `deleteRec_spec` say that they keep the structural invariant and act on the
bindings as the map operations do.
-/

namespace Edb.BTree

open Edb.Lib
open BTree.Tree (leaf node WF RootWF Pre)

/-- Inserting an element at the seam of two lists. -/
theorem insertIdx_length_append {α : Type} (l₁ l₂ : List α) (a : α) :
    (l₁ ++ l₂).insertIdx l₁.length a = l₁ ++ a :: l₂ := by
  induction l₁ with
  | nil => cases l₂ <;> rfl
  | cons b l₁ ih => simp [ih]

/-- The internal node after the child at `ci` was rebuilt. -/
def Tree.installChild {ι : Type} {h : Nat} (i : ι) (ks : List Bytes) (cs : List (Tree ι h))
    (ci : Nat) : Ins (Tree ι h) → Tree ι (h + 1)
  | .updated c => node i ks (cs.set ci c)
  | .split l s r => node i (ks.insertIdx ci s) ((cs.set ci l).insertIdx (ci + 1) r)

namespace Shape

variable {h : Nat} {lo hi : Option Bytes} {key value : Bytes}

/-! ## The algorithms -/

/-- Write a node: a page takes at most `cap` bytes. -/
def put (t : Shape h) : Except BTreeError (Shape h) :=
  if t.size > cap then .error (.pager (.payloadTooLarge t.size cap)) else .ok t

/-- `writeBalanced`. -/
def balanced (t : Shape h) : Except BTreeError (Ins (Shape h)) :=
  if t.size > cap then do
    let l ← put t.split.1
    let r ← put t.split.2.2
    pure (.split l t.split.2.1 r)
  else do
    let t ← put t
    pure (.updated t)

def insertRec (key value : Bytes) : {h : Nat} → Shape h → Except BTreeError (Ins (Shape h))
  | 0, t => balanced (leaf () (OrdMap.insert key value (LeafNode.entries t)))
  | _ + 1, t =>
      let ci := routeIndex (InnerNode.keys t) key
      match (InnerNode.children t)[ci]? with
      | none => .error .outOfFuel
      | some c => do
          let ins ← insertRec key value c
          balanced (Tree.installChild () (InnerNode.keys t) (InnerNode.children t) ci ins)

/-- `rebalance`: the new separators and children. -/
def rebalance (ks : List Bytes) (cs : List (Shape h)) (ci : Nat) :
    Except BTreeError (List Bytes × List (Shape h)) :=
  let l := if ci > 0 then ci - 1 else ci
  match cs[l]?, cs[l + 1]? with
  | some left, some right =>
      let merged := Tree.merge left (ks.getD l []) right
      if merged.size > cap then do
        let l₂ ← put merged.split.1
        let r₂ ← put merged.split.2.2
        pure (ks.set l merged.split.2.1, (cs.set l l₂).set (l + 1) r₂)
      else do
        let m ← put merged
        pure (ks.eraseIdx l, (cs.set l m).eraseIdx (l + 1))
  | _, _ => .error .outOfFuel

/-- Repair the child at `ci` if it was left underfull. -/
def repair (ks : List Bytes) (cs : List (Shape h)) (ci : Nat) (underfull : Bool) :
    Except BTreeError (List Bytes × List (Shape h)) :=
  if underfull then rebalance ks cs ci else .ok (ks, cs)

/-- Write what a deletion rebuilt, reporting whether it is underfull. -/
def putDone (t : Shape h) : Except BTreeError (Del (Shape h)) := do
  let t ← put t
  pure (.done t (decide (t.size < minFill)))

def deleteRec (key : Bytes) : {h : Nat} → Shape h → Except BTreeError (Del (Shape h))
  | 0, t =>
      match OrdMap.find key (LeafNode.entries t) with
      | none => .ok .unchanged
      | some _ => putDone (leaf () (OrdMap.erase key (LeafNode.entries t)))
  | _ + 1, t =>
      let ks := InnerNode.keys t
      let ci := routeIndex ks key
      match (InnerNode.children t)[ci]? with
      | none => .error .outOfFuel
      | some c => do
          match ← deleteRec key c with
          | .unchanged => pure .unchanged
          | .done c underfull =>
              let r ← repair ks ((InnerNode.children t).set ci c) ci underfull
              putDone (node () r.1 r.2)

/-- A shape of any height. -/
abbrev Any := (h : Nat) × Shape h

/-- The shape of a freshly created tree. -/
def empty : Any := ⟨0, leaf () []⟩

/-- The single child of an internal root replaces it. -/
def collapse : {h : Nat} → Shape h → Any
  | 0, t => ⟨0, t⟩
  | h + 1, t =>
      match InnerNode.children t with
      | [c] => ⟨h, c⟩
      | _ => ⟨h + 1, t⟩

def insert (t : Any) (key value : Bytes) : Except BTreeError Any := do
  checkEntry key value
  match ← insertRec key value t.2 with
  | .updated t => pure ⟨_, t⟩
  | .split l s r => do
      let t ← put (node () [s] [l, r])
      pure ⟨_, t⟩

def delete (t : Any) (key : Bytes) : Except BTreeError Any := do
  match ← deleteRec key t.2 with
  | .unchanged => pure t
  | .done t _ => pure (collapse t)

section Equations

variable (i : Unit) (es : List Entry) (ks : List Bytes) (cs : List (Shape h))

theorem insertRec_leaf :
    insertRec key value (leaf i es) = balanced (leaf () (OrdMap.insert key value es)) := rfl

/-- Insertion into a node goes to the routed child and balances what comes back. -/
theorem insertRec_node {c : Shape h} (hc : cs[routeIndex ks key]? = some c) :
    insertRec key value (node i ks cs) = insertRec key value c >>= fun ins =>
      balanced (Tree.installChild () ks cs (routeIndex ks key) ins) := by
  change (match cs[routeIndex ks key]? with | none => _ | some c => _) = _
  rw [hc]
  rfl

theorem deleteRec_leaf : deleteRec key (leaf i es) =
    match OrdMap.find key es with
    | none => .ok .unchanged
    | some _ => putDone (leaf () (OrdMap.erase key es)) := rfl

/-- Deletion from a node goes to the routed child and repairs what comes back underfull. -/
theorem deleteRec_node {c : Shape h} (hc : cs[routeIndex ks key]? = some c) :
    deleteRec key (node i ks cs) = deleteRec key c >>= fun
      | .unchanged => .ok .unchanged
      | .done c underfull =>
          repair ks (cs.set (routeIndex ks key) c) (routeIndex ks key) underfull >>= fun r =>
            putDone (node () r.1 r.2) := by
  change (match cs[routeIndex ks key]? with | none => _ | some c => _) = _
  rw [hc]
  rfl

end Equations

/-! ## Insertion -/

theorem put_eq_ok {t t' : Shape h} : put t = .ok t' ↔ t' = t ∧ t.size ≤ cap := by
  unfold put
  split
  · simp only [reduceCtorEq, false_iff]
    omega
  · rw [Except.ok.injEq]
    exact ⟨fun hc => ⟨hc.symm, by omega⟩, fun hc => hc.1.symm⟩

theorem bind_eq_ok {α β : Type} {x : Except BTreeError α} {f : α → Except BTreeError β} {b : β} :
    (x >>= f) = .ok b ↔ ∃ a, x = .ok a ∧ f a = .ok b := by
  cases x <;> simp [bind, Except.bind]

/-- What a recursive insert must establish over `[lo, hi)`, holding the bindings `es`. -/
def InsOk (lo hi : Option Bytes) (es : List Entry) : Ins (Shape h) → Prop
  | .updated t => t.WF lo hi ∧ t.entries = es
  | .split l s r => SepIn lo hi s ∧ Node.internalCell s ≤ maxCell ∧ l.WF lo (some s) ∧
      r.WF (some s) hi ∧ l.entries ++ r.entries = es

/-- Balancing keeps the entries in one page or two, each in its bounds. -/
theorem balanced_spec {t : Shape h} {ins : Ins (Shape h)} (ht : t.Pre lo hi) (hf : t.Full)
    (hr : balanced t = .ok ins) : InsOk lo hi t.entries ins := by
  unfold balanced at hr
  split at hr
  next hov =>
    obtain ⟨hsep, hlen, hl, hlf, hrt, hrf, hes⟩ := Tree.split_spec ht hov
    obtain ⟨l, hputl, hr⟩ := bind_eq_ok.mp hr
    obtain ⟨r, hputr, hr⟩ := bind_eq_ok.mp hr
    obtain ⟨rfl, hls⟩ := put_eq_ok.mp hputl
    obtain ⟨rfl, hrs⟩ := put_eq_ok.mp hputr
    cases hr
    exact ⟨hsep, hlen, ⟨hl, hls, hlf⟩, ⟨hrt, hrs, hrf⟩, hes⟩
  next hov =>
    obtain ⟨t', hput, hpure⟩ := bind_eq_ok.mp hr
    obtain ⟨rfl, hts⟩ := put_eq_ok.mp hput
    cases hpure
    exact ⟨⟨ht, hts, hf⟩, rfl⟩

/-- Installing what an insert into one child returned. -/
theorem installChild_spec {i : Unit} {ks : List Bytes} {cs : List (Shape h)} {c : Shape h}
    {ins : Ins (Shape h)} {ks₁ ks₃ : List Bytes} {cs₁ cs₃ : List (Shape h)} {a b : Option Bytes}
    {ci : Nat} {es : List Entry} (ht : (node i ks cs).Pre lo hi) (hf : (node i ks cs).Full)
    (hks : ks = ks₁ ++ ks₃) (hcs : cs = cs₁ ++ [c] ++ cs₃)
    (hl₁ : ks₁.length = ci) (hl₂ : cs₁.length = ci)
    (hctx : ∀ ts ms, Chain WF a ts ms b → Chain WF lo (ks₁ ++ ts ++ ks₃) (cs₁ ++ ms ++ cs₃) hi)
    (hins : InsOk a b es ins) :
    (Tree.installChild () ks cs ci ins).Pre lo hi ∧ (Tree.installChild () ks cs ci ins).Full ∧
      (Tree.installChild () ks cs ci ins).entries =
        cs₁.flatMap Tree.entries ++ es ++ cs₃.flatMap Tree.entries := by
  obtain ⟨hlens, hchain⟩ := Tree.pre_node.mp ht
  cases ins with
  | updated t =>
      obtain ⟨hwf, rfl⟩ := hins
      -- the child is replaced in its place: the separators stay
      have hset : cs.set ci t = cs₁ ++ [t] ++ cs₃ := by
        subst hcs hl₂
        simp
      simp only [Tree.installChild]
      rw [hset]
      refine ⟨Tree.pre_node.mpr ⟨hlens, ?_⟩, hf, by simp⟩
      have := hctx [] [t] (Chain.single.mpr hwf)
      rwa [List.append_nil, ← hks] at this
  | split l s r =>
      obtain ⟨hsep, hlen, hl, hr, rfl⟩ := hins
      -- two children in place of one, and the separator between them
      have hkeys : ks.insertIdx ci s = ks₁ ++ [s] ++ ks₃ := by
        subst hks hl₁
        rw [insertIdx_length_append]
        simp
      have hset : (cs.set ci l).insertIdx (ci + 1) r = cs₁ ++ [l, r] ++ cs₃ := by
        subst hcs hl₂
        have : (cs₁ ++ [c] ++ cs₃).set cs₁.length l = (cs₁ ++ [l]) ++ cs₃ := by simp
        rw [this, show cs₁.length + 1 = (cs₁ ++ [l]).length by simp, insertIdx_length_append]
        simp
      simp only [Tree.installChild]
      rw [hkeys, hset]
      refine ⟨Tree.pre_node.mpr ⟨fun k hk => ?_, ?_⟩, ?_, by simp⟩
      · simp only [List.mem_append, List.mem_singleton] at hk
        rcases hk with (hk | rfl) | hk
        · exact hlens k (by rw [hks]; exact List.mem_append_left _ hk)
        · exact hlen
        · exact hlens k (by rw [hks]; exact List.mem_append_right _ hk)
      · exact hctx [s] [l, r] (Chain.pair.mpr ⟨hsep, hl, hr⟩)
      · rw [Tree.full_node]
        simp

/-- Inserting keeps the invariant and binds the key, whether or not the subtree splits. -/
theorem insertRec_spec {t : Shape h} {ins : Ins (Shape h)} (ht : t.Pre lo hi)
    (hf : h ≠ 0 → t.Full) (hkey : InRange lo hi key) (hentry : EntryOk (key, value))
    (hr : insertRec key value t = .ok ins) :
    InsOk lo hi (OrdMap.insert key value t.entries) ins := by
  induction h generalizing lo hi with
  | zero =>
      obtain ⟨i, es, rfl⟩ := t.exists_leaf
      obtain ⟨hsort, hes⟩ := Tree.pre_leaf.mp ht
      rw [insertRec_leaf] at hr
      refine balanced_spec (Tree.pre_leaf.mpr ⟨hsort.insert, fun e he => ?_⟩) ?_ hr
      · rcases OrdMap.mem_insert he with rfl | he
        · exact ⟨hkey, hentry⟩
        · exact hes e he
      · exact Tree.full_leaf () _ |>.mpr (OrdMap.insert_ne_nil key value es)
  | succ h ih =>
      obtain ⟨i, ks, cs, rfl⟩ := t.exists_node
      obtain ⟨-, hchain⟩ := Tree.pre_node.mp ht
      obtain ⟨ks₁, ks₃, cs₁, c, cs₃, a, b, hks, hcs, hl₁, hl₂, hwf, hkey', hbelow, habove, hctx⟩ :=
        Tree.exists_routed hchain hkey
      have hget : cs[routeIndex ks key]? = some c := by
        rw [hcs, ← hl₂]
        simp
      rw [insertRec_node i ks cs hget] at hr
      obtain ⟨ins', hins', hr⟩ := bind_eq_ok.mp hr
      have hsub := ih hwf.pre (fun _ => hwf.full) hkey' hins'
      obtain ⟨hpre, hfull, hes⟩ :=
        installChild_spec ht (hf (Nat.succ_ne_zero h)) hks hcs hl₁ hl₂ hctx hsub
      have := balanced_spec hpre hfull hr
      rw [hes] at this
      rw [Tree.entries_node, hcs, List.flatMap_append, List.flatMap_append,
        OrdMap.insert_middle hbelow habove]
      simpa using this

/-! ## Deletion -/

theorem putDone_eq_ok {t t' : Shape h} {u : Bool} : putDone t = .ok (.done t' u) ↔
    t' = t ∧ t.size ≤ cap ∧ u = decide (t.size < minFill) := by
  constructor
  · intro hr
    obtain ⟨t₁, hput, hpure⟩ := bind_eq_ok.mp hr
    obtain ⟨rfl, hs⟩ := put_eq_ok.mp hput
    cases hpure
    exact ⟨rfl, hs, rfl⟩
  · rintro ⟨rfl, hs, rfl⟩
    exact bind_eq_ok.mpr ⟨t', put_eq_ok.mpr ⟨rfl, hs⟩, rfl⟩

theorem putDone_ne_unchanged {t : Shape h} : putDone t ≠ .ok .unchanged := by
  intro hr
  obtain ⟨t₁, -, hr⟩ := bind_eq_ok.mp hr
  cases hr

/-- Taking a list apart around two adjacent elements. -/
theorem exists_pair {α : Type} {l : List α} {i : Nat} (hi : i + 1 < l.length) :
    ∃ l₁ x y l₃, l = l₁ ++ [x, y] ++ l₃ ∧ l₁.length = i := by
  refine ⟨l.take i, l.get ⟨i, by omega⟩, l.get ⟨i + 1, hi⟩, l.drop (i + 2), ?_,
    List.length_take_of_le (by omega)⟩
  rw [List.append_assoc, List.cons_append, List.singleton_append, List.get_eq_getElem,
    List.get_eq_getElem, ← List.drop_eq_getElem_cons, ← List.drop_eq_getElem_cons,
    List.take_append_drop]

/-- Merging two adjacent children, and splitting the result back if it overflows. -/
theorem rebalance_pair {ks₁ ks₃ ks' : List Bytes} {cs₁ cs₃ cs' : List (Shape h)} {s : Bytes}
    {x y : Shape h} {a b : Option Bytes} {ci : Nat}
    (hl₁ : ks₁.length = if ci > 0 then ci - 1 else ci) (hl₂ : cs₁.length = ks₁.length)
    (hsep : SepIn a b s) (hlen : Node.internalCell s ≤ maxCell) (hx : x.Pre a (some s))
    (hy : y.Pre (some s) b) (hfull : x.Full ∨ y.Full)
    (hr : rebalance (ks₁ ++ [s] ++ ks₃) (cs₁ ++ [x, y] ++ cs₃) ci = .ok (ks', cs')) :
    ∃ ts ms, ks' = ks₁ ++ ts ++ ks₃ ∧ cs' = cs₁ ++ ms ++ cs₃ ∧ Chain WF a ts ms b ∧
      (∀ k ∈ ts, Node.internalCell k ≤ maxCell) ∧
      ms.flatMap Tree.entries = x.entries ++ y.entries := by
  have hgetx : (cs₁ ++ [x, y] ++ cs₃)[ks₁.length]? = some x := by
    rw [← hl₂]
    simp
  have hgety : (cs₁ ++ [x, y] ++ cs₃)[ks₁.length + 1]? = some y := by
    rw [← hl₂]
    simp
  have hgets : (ks₁ ++ [s] ++ ks₃).getD ks₁.length [] = s := by simp
  -- the two siblings and the separator between them are merged
  obtain ⟨hmpre, hmfull⟩ := Tree.merge_spec hsep hlen hx hy hfull
  have hmes := Tree.entries_merge x s y
  unfold rebalance at hr
  simp only [← hl₁, hgetx, hgety, hgets] at hr
  generalize Tree.merge x s y = m at hmpre hmfull hmes hr
  split at hr
  next hov =>
    -- too large for one page: split again, with a new separator
    obtain ⟨hsep', hlen', hl, hlf, hrt, hrf, hes⟩ := Tree.split_spec hmpre hov
    obtain ⟨l, hputl, hr⟩ := bind_eq_ok.mp hr
    obtain ⟨r, hputr, hr⟩ := bind_eq_ok.mp hr
    obtain ⟨rfl, hls⟩ := put_eq_ok.mp hputl
    obtain ⟨rfl, hrs⟩ := put_eq_ok.mp hputr
    cases hr
    refine ⟨[m.split.2.1], [m.split.1, m.split.2.2], by simp, ?_,
      Chain.pair.mpr ⟨hsep', ⟨hl, hls, hlf⟩, ⟨hrt, hrs, hrf⟩⟩, by simpa using hlen', ?_⟩
    · rw [← hl₂]
      simp
    · simpa [hes] using hmes
  next hov =>
    -- small enough: one child and one separator fewer
    obtain ⟨m', hput, hpure⟩ := bind_eq_ok.mp hr
    obtain ⟨rfl, hms⟩ := put_eq_ok.mp hput
    cases hpure
    refine ⟨[], [m'], by simp [List.eraseIdx_append], ?_, Chain.single.mpr ⟨hmpre, hms, hmfull⟩,
      by simp, by simpa using hmes⟩
    rw [← hl₂]
    simp [List.eraseIdx_append]

/-- Rebalancing repairs the chain of children in which the child at `ci` may have become too
small, without touching the bindings. -/
theorem rebalance_spec {ks ks' : List Bytes} {cs cs' : List (Shape h)} {ci : Nat} {c c' : Shape h}
    (hchain : Chain WF lo ks cs hi) (hlens : ∀ k ∈ ks, Node.internalCell k ≤ maxCell)
    (hks : ks ≠ []) (hget : cs[ci]? = some c) (hc' : ∀ a b, c.WF a b → c'.Pre a b)
    (hr : rebalance ks (cs.set ci c') ci = .ok (ks', cs')) :
    Chain WF lo ks' cs' hi ∧ (∀ k ∈ ks', Node.internalCell k ≤ maxCell) ∧
      cs'.flatMap Tree.entries = (cs.set ci c').flatMap Tree.entries := by
  have hlen := hchain.length
  have hpos := List.length_pos_iff.mpr hks
  obtain ⟨hci, -⟩ := List.getElem?_eq_some_iff.mp hget
  obtain ⟨l, hl⟩ : ∃ l, l = if ci > 0 then ci - 1 else ci := ⟨_, rfl⟩
  have hcase : ci = l ∨ ci = l + 1 := by
    split at hl <;> omega
  have hll : l + 1 < cs.length := by
    split at hl <;> omega
  obtain ⟨cs₁, x, y, cs₃, rfl, hcl⟩ := exists_pair hll
  obtain ⟨ks₁, s, ks₃, rfl, hkl⟩ : ∃ ks₁ s ks₃, ks = ks₁ ++ [s] ++ ks₃ ∧ ks₁.length = l := by
    refine ⟨ks.take l, ks.get ⟨l, by omega⟩, ks.drop (l + 1), ?_,
      List.length_take_of_le (by omega)⟩
    rw [List.append_assoc, List.singleton_append, List.get_eq_getElem,
      ← List.drop_eq_getElem_cons, List.take_append_drop]
  obtain ⟨hmid, -, -, hctx⟩ := Chain.segment (by omega) (by rfl) hchain
  obtain ⟨hsep, hx, hy⟩ := Chain.pair.mp hmid
  have hs : Node.internalCell s ≤ maxCell := hlens s (by simp)
  -- which of the two children is the one that shrank
  obtain ⟨x', y', hset, hx', hy', hfull⟩ : ∃ x' y', (cs₁ ++ [x, y] ++ cs₃).set ci c' =
      cs₁ ++ [x', y'] ++ cs₃ ∧ x'.Pre (ks₁.getLast?.or lo) (some s) ∧
      y'.Pre (some s) (ks₃.head?.or hi) ∧ (x'.Full ∨ y'.Full) := by
    subst hcl
    rcases hcase with rfl | rfl
    · have : c = x := by simpa using hget.symm
      subst this
      exact ⟨c', y, by simp, hc' _ _ hx, hy.pre, .inr hy.full⟩
    · have : c = y := by simpa using hget.symm
      subst this
      exact ⟨x, c', by simp, hx.pre, hc' _ _ hy, .inl hx.full⟩
  rw [hset] at hr ⊢
  obtain ⟨ts, ms, rfl, rfl, hch, htl, hes⟩ :=
    rebalance_pair (hkl.trans hl) (by omega) hsep hs hx' hy' hfull hr
  refine ⟨hctx ts ms hch, fun k hk => ?_, by simp [hes]⟩
  simp only [List.mem_append] at hk
  rcases hk with (hk | hk) | hk
  · exact hlens k (by simp [hk])
  · exact htl k hk
  · exact hlens k (by simp [hk])

/-- What a recursive delete must establish: the subtree keeps its order and its bindings but the
one of the key. It may be left underfull, even without a key. -/
def DelOk (lo hi : Option Bytes) (key : Bytes) (t : Shape h) : Del (Shape h) → Prop
  | .unchanged => InRange lo hi key → ∀ e ∈ t.entries, e.1 ≠ key
  | .done t' u => t'.Pre lo hi ∧ t'.size ≤ cap ∧ u = decide (t'.size < minFill) ∧
      (InRange lo hi key → t'.entries = OrdMap.erase key t.entries)

/-- The repaired children after a deletion from the child at `ci`. -/
theorem repair_spec {ks ks' : List Bytes} {cs cs' : List (Shape h)} {ci : Nat} {c c' : Shape h}
    {u : Bool} (hchain : Chain WF lo ks cs hi) (hlens : ∀ k ∈ ks, Node.internalCell k ≤ maxCell)
    (hks : ks ≠ []) (hget : cs[ci]? = some c) (hc' : ∀ a b, c.WF a b → c'.Pre a b)
    (hsize : c'.size ≤ cap) (hu : u = decide (c'.size < minFill))
    (hr : repair ks (cs.set ci c') ci u = .ok (ks', cs')) :
    Chain WF lo ks' cs' hi ∧ (∀ k ∈ ks', Node.internalCell k ≤ maxCell) ∧
      cs'.flatMap Tree.entries = (cs.set ci c').flatMap Tree.entries := by
  unfold repair at hr
  cases u with
  | true => exact rebalance_spec hchain hlens hks hget hc' hr
  | false =>
      cases hr
      refine ⟨?_, hlens, rfl⟩
      have hlen := hchain.length
      obtain ⟨hci, -⟩ := List.getElem?_eq_some_iff.mp hget
      obtain ⟨ks₁, ks₃, cs₁, c₁, cs₃, hks', rfl, hl₁, hl₂⟩ := hchain.at_index ci (by omega)
      have hcc : c = c₁ := by
        subst hl₂
        simpa using hget.symm
      subst hcc hks'
      rw [← List.append_nil ks₁] at hchain
      obtain ⟨hmid, -, -, hctx⟩ := Chain.segment (hl₂.trans hl₁.symm) rfl hchain
      have hset : (cs₁ ++ [c] ++ cs₃).set ci c' = cs₁ ++ [c'] ++ cs₃ := by
        subst hl₂
        simp
      have hmin : minFill ≤ c'.size := not_lt.mp (of_decide_eq_false hu.symm)
      have := hctx [] [c'] (Chain.single.mpr
        ⟨hc' _ _ (Chain.single.mp hmid), hsize, Tree.full_of_size hmin⟩)
      rw [hset]
      rwa [List.append_nil] at this

/-- Deletion erases the key, keeps the order and says whether the page is underfull. -/
theorem deleteRec_spec {t : Shape h} {d : Del (Shape h)} (ht : t.Pre lo hi)
    (hf : h ≠ 0 → t.Full) (hr : deleteRec key t = .ok d) : DelOk lo hi key t d := by
  induction h generalizing lo hi with
  | zero =>
      obtain ⟨i, es, rfl⟩ := t.exists_leaf
      obtain ⟨hsort, hes⟩ := Tree.pre_leaf.mp ht
      rw [deleteRec_leaf] at hr
      split at hr
      next hfind =>
        cases hr
        intro _ e he heq
        obtain ⟨k, v⟩ := e
        change k = key at heq
        subst heq
        rw [(OrdMap.find_eq_some_iff hsort).mpr he] at hfind
        cases hfind
      next v hfind =>
        cases d with
        | unchanged => exact absurd hr putDone_ne_unchanged
        | done t' u =>
            obtain ⟨rfl, hs, rfl⟩ := putDone_eq_ok.mp hr
            refine ⟨Tree.pre_leaf.mpr ⟨hsort.erase, fun e he => ?_⟩, hs, rfl, fun _ => rfl⟩
            exact hes e (List.mem_of_mem_filter he)
  | succ h ih =>
      obtain ⟨i, ks, cs, rfl⟩ := t.exists_node
      obtain ⟨hlens, hchain⟩ := Tree.pre_node.mp ht
      have hks : ks ≠ [] := hf (Nat.succ_ne_zero h)
      obtain ⟨-, -, cs₁, c, cs₃, -, hcs, -, hl₂⟩ :=
        hchain.at_index (routeIndex ks key) (OrdMap.partitionPoint_le _ _)
      have hget : cs[routeIndex ks key]? = some c := by
        rw [hcs, ← hl₂]
        simp
      rw [deleteRec_node i ks cs hget] at hr
      obtain ⟨d', hd', hr⟩ := bind_eq_ok.mp hr
      -- inside the range of the key, the child and its surroundings are those of the route
      have hroute : InRange lo hi key → ∃ a b, c.WF a b ∧ InRange a b key ∧
          (∀ e ∈ cs₁.flatMap Tree.entries, e.1 < key) ∧
          ∀ e ∈ cs₃.flatMap Tree.entries, key < e.1 := by
        intro hkey
        obtain ⟨-, -, cs₁', c₁, cs₃', a, b, -, hcs', -, hl₂', hwf, hkey', hbelow, habove, -⟩ :=
          Tree.exists_routed hchain hkey
        obtain ⟨hleft, hright⟩ := List.append_inj (hcs.symm.trans hcs') (by simp [hl₂, hl₂'])
        obtain ⟨rfl, hc⟩ := List.append_inj hleft (by omega)
        cases hc
        subst hright
        exact ⟨a, b, hwf, hkey', hbelow, habove⟩
      cases d' with
      | unchanged =>
          cases hr
          intro hkey e he
          obtain ⟨a, b, hwf, hkey', hbelow, habove⟩ := hroute hkey
          rw [Tree.entries_node, hcs] at he
          simp only [List.flatMap_append, List.flatMap_singleton, List.mem_append] at he
          rcases he with (he | he) | he
          · exact ne_of_lt (hbelow e he)
          · exact ih hwf.pre (fun _ => hwf.full) hd' hkey' e he
          · exact ne_of_gt (habove e he)
      | done c' u =>
          obtain ⟨⟨ks', cs'⟩, hrep, hput⟩ := bind_eq_ok.mp hr
          have hchild : ∀ a b, c.WF a b → DelOk a b key c (.done c' u) :=
            fun a b hwf => ih hwf.pre (fun _ => hwf.full) hd'
          obtain ⟨a₀, b₀, hwf₀⟩ : ∃ a b, c.WF a b := hchain.exists_bounds (by rw [hcs]; simp)
          obtain ⟨-, hsize, hu, -⟩ := hchild _ _ hwf₀
          obtain ⟨hch, hlens', hes⟩ := repair_spec hchain hlens hks hget
            (fun a b hwf => (hchild a b hwf).1) hsize hu hrep
          cases d with
          | unchanged => exact absurd hput putDone_ne_unchanged
          | done t' u' =>
              obtain ⟨rfl, hs, rfl⟩ := putDone_eq_ok.mp hput
              refine ⟨Tree.pre_node.mpr ⟨hlens', hch⟩, hs, rfl, fun hkey => ?_⟩
              obtain ⟨a, b, hwf, hkey', hbelow, habove⟩ := hroute hkey
              have hset : cs.set (routeIndex ks key) c' = cs₁ ++ [c'] ++ cs₃ := by
                rw [hcs, ← hl₂]
                simp
              rw [Tree.entries_node, Tree.entries_node, hes, hset, hcs]
              simp only [List.flatMap_append, List.flatMap_singleton]
              rw [OrdMap.erase_middle hbelow habove, (hchild a b hwf).2.2.2 hkey']

/-! ## Whole trees -/

theorem empty_wf : empty.2.RootWF :=
  ⟨Tree.pre_leaf.mpr ⟨OrdMap.sorted_nil, (by simp)⟩, (by decide), fun h => absurd rfl h⟩

theorem inRange_unbounded (k : Bytes) : InRange none none k :=
  ⟨(fun _ h => nomatch h), (fun _ h => nomatch h)⟩

/-- Inserting into a well-formed tree gives a well-formed tree with the key bound. -/
theorem insert_spec {t t' : Any} (ht : t.2.RootWF) (hr : insert t key value = .ok t') :
    t'.2.RootWF ∧ t'.2.entries = OrdMap.insert key value t.2.entries := by
  obtain ⟨_, hentry, hr⟩ := bind_eq_ok.mp hr
  obtain ⟨ins, hins, hr⟩ := bind_eq_ok.mp hr
  have hspec := insertRec_spec ht.pre ht.full (inRange_unbounded key)
    (checkEntry_eq_ok.mp hentry) hins
  cases ins with
  | updated u =>
      cases hr
      exact ⟨hspec.1.rootWF, hspec.2⟩
  | split l s r =>
      obtain ⟨hsep, hlen, hl, hr', hes⟩ := hspec
      obtain ⟨u, hput, hpure⟩ := bind_eq_ok.mp hr
      obtain ⟨rfl, hs⟩ := put_eq_ok.mp hput
      cases hpure
      refine ⟨⟨Tree.pre_node.mpr ⟨by simpa using hlen, Chain.pair.mpr ⟨hsep, hl, hr'⟩⟩, hs,
        fun _ => by simp [Tree.full_node]⟩, ?_⟩
      rw [← hes]
      simp

theorem collapse_of_ne (i : Unit) (ks : List Bytes) {cs : List (Shape h)} (hne : ∀ c, cs ≠ [c]) :
    collapse (node i ks cs) = ⟨h + 1, node i ks cs⟩ := by
  match cs, hne with
  | [], _ => rfl
  | [c], hne => exact absurd rfl (hne c)
  | _ :: _ :: _, _ => rfl

/-- Removing the level of a root with a single child. -/
theorem collapse_spec {t : Shape h} (ht : t.Pre none none) (hs : t.size ≤ cap) :
    (collapse t).2.RootWF ∧ (collapse t).2.entries = t.entries := by
  cases h with
  | zero => exact ⟨⟨ht, hs, fun h => absurd rfl h⟩, rfl⟩
  | succ h =>
      obtain ⟨i, ks, cs, rfl⟩ := t.exists_node
      obtain ⟨-, hchain⟩ := Tree.pre_node.mp ht
      have hlen := hchain.length
      by_cases hone : ∃ c, cs = [c]
      · obtain ⟨c, rfl⟩ := hone
        have hnil : ks = [] := by simpa using hlen
        subst hnil
        exact ⟨(Chain.single.mp hchain).rootWF, (List.flatMap_singleton ..).symm⟩
      · rw [collapse_of_ne i ks fun c hc => hone ⟨c, hc⟩]
        refine ⟨⟨ht, hs, fun _ hnil => ?_⟩, rfl⟩
        change ks = [] at hnil
        subst hnil
        exact hone (List.length_eq_one_iff.mp hlen)

/-- Deleting from a well-formed tree gives a well-formed tree with the key unbound. -/
theorem delete_spec {t t' : Any} (ht : t.2.RootWF) (hr : delete t key = .ok t') :
    t'.2.RootWF ∧ t'.2.entries = OrdMap.erase key t.2.entries := by
  obtain ⟨d, hd, hr⟩ := bind_eq_ok.mp hr
  have hspec := deleteRec_spec ht.pre ht.full hd
  cases d with
  | unchanged =>
      cases hr
      exact ⟨ht, (OrdMap.erase_of_forall_ne (hspec (inRange_unbounded key))).symm⟩
  | done u b =>
      cases hr
      obtain ⟨hpre, hs, -, hes⟩ := hspec
      obtain ⟨hwf, hces⟩ := collapse_spec hpre hs
      exact ⟨hwf, hces.trans (hes (inRange_unbounded key))⟩

end Shape

end Edb.BTree
