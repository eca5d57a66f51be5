import Mathlib.Algebra.BigOperators.Group.List.Basic
import Edb.BTree.Read
import Edb.BTree.Cursor

/-!
# Scans

A cursor's path is a position in the in-order listing of the tree: the entries before it and those
from it on (`At`). Opening a cursor splits the listing at the start bound, a forward step moves
one entry from behind the position to before it, and a backward step moves one the other way; a
scan therefore returns the entries in its range, in order. All this needs of the pages is that the
tree stands in them and that it is ordered.
-/

namespace Edb.BTree

open Edb.Lib
open BTree.Tree (leaf node WF RootWF Pre Ranged)

variable {p p' : Pager Node} {h : Nat} {lo hi : Option Bytes} {t : PageTree}

namespace Cursor

variable {store : Store} {n : Nat} {path : List CursorFrame} {before after mid : List Entry}

/-- The entries before and after the subtree, with entries `mid`, that a path of internal frames
leads to. -/
inductive Above (store : Store) (n : Nat) :
    List CursorFrame → List Entry → List Entry → List Entry → Prop
  | nil {mid : List Entry} : Above store n [] mid [] []
  | cons {h : Nat} (ks : List Bytes) (cs₁ : List (Tree Nat h)) (c : Tree Nat h)
      (cs₃ : List (Tree Nat h)) {path : List CursorFrame} {before after : List Entry}
      (kids : ∀ c' ∈ cs₁ ++ c :: cs₃, Stands store c' ∧ ∃ a b, c'.Ranged a b) (height : h < n)
      (up : Above store n path ((cs₁ ++ c :: cs₃).flatMap Tree.entries) before after) :
      Above store n ({ node := .internal ks ((cs₁ ++ c :: cs₃).map Tree.label),
                       idx := cs₁.length } :: path)
        c.entries (before ++ cs₁.flatMap Tree.entries) (cs₃.flatMap Tree.entries ++ after)

/-- The path stands between the entries `before` and the entries `after`. -/
inductive At (store : Store) (n : Nat) : List CursorFrame → List Entry → List Entry → Prop
  | leaf (es₁ es₂ : List Entry) {path : List CursorFrame} {before after : List Entry}
      (up : Above store n path (es₁ ++ es₂) before after) :
      At store n ({ node := .leaf ((es₁ ++ es₂).map Prod.fst) ((es₁ ++ es₂).map Prod.snd),
                    idx := es₁.length } :: path) (before ++ es₁) (es₂ ++ after)

/-- The path stands on an entry of its leaf. -/
def OnEntry : List CursorFrame → Prop
  | { node := .leaf keys _, idx := idx } :: _ => idx < keys.length
  | _ => False

/-- The path stands just past an entry of its leaf. -/
def PastEntry : List CursorFrame → Prop
  | { node := .leaf _ _, idx := idx } :: _ => 0 < idx
  | _ => False

/-! ## Descending -/

/-- The children of a node that stands, after it was read. -/
theorem kids_of_chain {i : Nat} {ks : List Bytes} {cs : List (Tree Nat h)}
    (hs : Stands store (node i ks cs)) (hchain : Chain Ranged lo ks cs hi) :
    ∀ c ∈ cs, Stands store c ∧ ∃ a b, c.Ranged a b :=
  fun c hc => ⟨hs.2 c hc, hchain.exists_bounds hc⟩

/-- The path down the left edge of a subtree stands on its first entry. -/
theorem descendLeftmost_spec {s : Tree Nat h} (hc : p.Coherent) (hs : Stands (nodeAt p) s)
    (ht : s.Ranged lo hi) (hpath : Above (nodeAt p) n path s.entries before after)
    (hcount : h < n) {fuel : Nat} (hfuel : h < fuel) :
    ∃ path' p', descendLeftmost fuel s.label path p = .ok path' p' ∧ Pager.Peeks p p' ∧
      At (nodeAt p) n path' before (s.entries ++ after) ∧ OnEntry path' := by
  induction h generalizing p lo hi fuel path before after with
  | zero =>
      obtain ⟨fuel, rfl⟩ : ∃ f, fuel = f + 1 := ⟨fuel - 1, by omega⟩
      obtain ⟨i, es, rfl⟩ := s.exists_leaf
      obtain ⟨p₁, hread, hpeeks⟩ := hs.read hc
      refine ⟨{ node := (leaf i es).toNode, idx := 0 } :: path, p₁, ?_, hpeeks, ?_, ?_⟩
      · rw [descendLeftmost, Lib.bind_of_ok hread]
        rfl
      · have hat := At.leaf [] es hpath
        rwa [List.append_nil] at hat
      · have := List.length_pos_iff.mpr ((Tree.full_leaf i es).mp ht.full)
        simpa [OnEntry] using this
  | succ h ih =>
      obtain ⟨fuel, rfl⟩ : ∃ f, fuel = f + 1 := ⟨fuel - 1, by omega⟩
      obtain ⟨i, ks, cs, rfl⟩ := s.exists_node
      obtain ⟨p₁, hread, hpeeks⟩ := hs.read hc
      have hchain := Tree.ordered_node.mp ht.ordered
      obtain ⟨c, cs, rfl⟩ : ∃ c cs', cs = c :: cs' :=
        List.exists_cons_of_length_pos (by have := hchain.length; omega)
      obtain ⟨a, b, hranged⟩ := hchain.exists_bounds (List.mem_cons_self ..)
      have habove := Above.cons ks [] c cs (kids_of_chain hs hchain) (by omega : h < n) hpath
      rw [List.flatMap_nil, List.append_nil, ← nodeAt_peeks hpeeks] at habove
      obtain ⟨path', p₂, hrun, hpeeks₂, hat, hon⟩ := ih hpeeks.coherent
        ((hs.2 c (List.mem_cons_self ..)).peeks hpeeks) hranged habove (by omega)
        (Nat.lt_of_succ_lt_succ hfuel)
      refine ⟨path', p₂, ?_, hpeeks.trans hpeeks₂, ?_, hon⟩
      · rw [descendLeftmost, Lib.bind_of_ok hread]
        exact hrun
      · rw [nodeAt_peeks hpeeks, ← List.append_assoc] at hat
        rwa [Tree.entries_node, List.flatMap_cons]

/-- The path down the right edge of a subtree stands past its last entry. -/
theorem descendRightmost_spec {s : Tree Nat h} (hc : p.Coherent) (hs : Stands (nodeAt p) s)
    (hord : s.Ordered lo hi) (hpath : Above (nodeAt p) n path s.entries before after)
    (hcount : h < n) {fuel : Nat} (hfuel : h < fuel) :
    ∃ path' p', descendRightmost fuel s.label path p = .ok path' p' ∧ Pager.Peeks p p' ∧
      At (nodeAt p) n path' (before ++ s.entries) after ∧ (s.Full → PastEntry path') := by
  induction h generalizing p lo hi fuel path before after with
  | zero =>
      obtain ⟨fuel, rfl⟩ : ∃ f, fuel = f + 1 := ⟨fuel - 1, by omega⟩
      obtain ⟨i, es, rfl⟩ := s.exists_leaf
      obtain ⟨p₁, hread, hpeeks⟩ := hs.read hc
      refine ⟨{ node := (leaf i es).toNode, idx := es.length } :: path, p₁, ?_, hpeeks, ?_, ?_⟩
      · rw [descendRightmost, Lib.bind_of_ok hread]
        simp only [Tree.toNode_leaf, List.length_map]
        rfl
      · have hup : Above (nodeAt p) n path (es ++ []) before after := by
          rwa [List.append_nil]
        have hat := At.leaf es [] hup
        rwa [List.append_nil] at hat
      · exact fun hfull => List.length_pos_iff.mpr hfull
  | succ h ih =>
      obtain ⟨fuel, rfl⟩ : ∃ f, fuel = f + 1 := ⟨fuel - 1, by omega⟩
      obtain ⟨i, ks, cs, rfl⟩ := s.exists_node
      obtain ⟨p₁, hread, hpeeks⟩ := hs.read hc
      have hchain := Tree.ordered_node.mp hord
      -- the descent takes the last child
      obtain ⟨cs, c, rfl⟩ : ∃ cs' c, cs = cs' ++ [c] := by
        have hne : cs ≠ [] := List.length_pos_iff.mp (by have := hchain.length; omega)
        exact ⟨_, _, (List.dropLast_append_getLast hne).symm⟩
      have hmem : c ∈ cs ++ [c] := by simp
      obtain ⟨a, b, hranged⟩ := hchain.exists_bounds hmem
      have habove := Above.cons ks cs c [] (kids_of_chain hs hchain) (by omega : h < n) hpath
      rw [List.flatMap_nil, List.nil_append, ← nodeAt_peeks hpeeks] at habove
      obtain ⟨path', p₂, hrun, hpeeks₂, hat, hpast⟩ := ih hpeeks.coherent
        ((hs.2 c hmem).peeks hpeeks) hranged.ordered habove (by omega)
        (Nat.lt_of_succ_lt_succ hfuel)
      refine ⟨path', p₂, ?_, hpeeks.trans hpeeks₂, ?_, fun _ => hpast hranged.full⟩
      · rw [descendRightmost, Lib.bind_of_ok hread]
        have hlast : ((cs ++ [c]).map Tree.label).length - 1 = cs.length := by simp
        have hchild : ((cs ++ [c]).map Tree.label).getD cs.length 0 = c.label := by simp
        simp only [Tree.toNode_node, hlast, hchild]
        exact hrun
      · rw [nodeAt_peeks hpeeks, List.append_assoc] at hat
        rwa [Tree.entries_node, List.flatMap_append, List.flatMap_singleton]

/-- The child a bound leads to: the entries before it lie below the bound, those after it do
not. -/
theorem exists_sought {ks : List Bytes} {cs : List (Tree Nat h)} {bound : Option Bytes}
    (hchain : Chain Ranged lo ks cs hi) (hb : ∀ b ∈ bound, InRange lo hi b) :
    ∃ cs₁ c cs₃ a b, cs = cs₁ ++ c :: cs₃ ∧
      cs₁.length = seekChild bound ks ∧
      c.Ranged a b ∧ (∀ b' ∈ bound, InRange a b b') ∧
      (∀ e ∈ cs₁.flatMap Tree.entries, inBounds bound none e.1 = false) ∧
      ∀ e ∈ cs₃.flatMap Tree.entries, inBounds bound none e.1 = true := by
  cases bound with
  | none =>
      obtain ⟨-, -, cs₁, c, cs₃, -, rfl, -, hl⟩ := hchain.at_index 0 (Nat.zero_le _)
      obtain ⟨a, b, hranged⟩ := hchain.exists_bounds (c := c) (by simp)
      have hnil : cs₁ = [] := List.length_eq_zero_iff.mp hl
      subst hnil
      exact ⟨[], c, cs₃, a, b, rfl, rfl, hranged, by simp, by simp, fun _ _ => rfl⟩
  | some b =>
      obtain ⟨-, -, cs₁, c, cs₃, a, b', -, hcs, -, hl, hranged, hkey, hbelow, habove, -⟩ :=
        Tree.exists_routed_of (fun _ _ _ hc => hc.ordered.entries_sorted.2) hchain (hb b rfl)
      refine ⟨cs₁, c, cs₃, a, b', by rw [hcs, List.append_assoc]; rfl, hl, hranged, ?_,
        fun e he => ?_, fun e he => ?_⟩
      · rintro _ ⟨⟩
        exact hkey
      · have := hbelow e he
        simpa [inBounds] using this
      · have := le_of_lt (habove e he)
        simpa [inBounds] using this

/-- The position a bound leads to in a leaf: the entries before it lie below the bound, those from
it on do not. -/
theorem seekEntry_split {es : List Entry} (hs : OrdMap.Sorted es) (bound : Option Bytes) :
    ∃ es₁ es₂, es = es₁ ++ es₂ ∧ es₁.length = seekEntry bound (es.map Prod.fst) ∧
      (∀ e ∈ es₁, inBounds bound none e.1 = false) ∧
      ∀ e ∈ es₂, inBounds bound none e.1 = true := by
  cases bound with
  | none => exact ⟨[], es, rfl, rfl, by simp, fun _ _ => rfl⟩
  | some b =>
      rw [seekEntry, OrdMap.partitionPoint_map]
      refine ⟨_, _, (List.take_append_drop _ es).symm,
        List.length_take_of_le (OrdMap.partitionPoint_le _ _), fun e he => ?_, fun e he => ?_⟩
      · have := of_decide_eq_true (OrdMap.lt_of_mem_take_partitionPoint
          (p := (fun k => decide (k < b)) ∘ Prod.fst) he)
        simpa [inBounds] using this
      · have := OrdMap.not_of_mem_drop_partitionPoint hs (fun a c hac hc =>
          decide_eq_true (lt_trans hac (of_decide_eq_true hc))) he
        have := not_lt.mp (of_decide_eq_false this)
        simpa [inBounds] using this

/-- The path down to a bound stands between the entries below it and the others. -/
theorem descendLowerBound_spec {s : Tree Nat h} (hc : p.Coherent) (hs : Stands (nodeAt p) s)
    (hord : s.Ordered lo hi) {bound : Option Bytes} (hb : ∀ b ∈ bound, InRange lo hi b)
    (hpath : Above (nodeAt p) n path s.entries before after) (hcount : h < n) {fuel : Nat}
    (hfuel : h < fuel) :
    ∃ path' p' es₁ es₂, descendLowerBound bound fuel s.label path p = .ok path' p' ∧
      Pager.Peeks p p' ∧ s.entries = es₁ ++ es₂ ∧
      At (nodeAt p) n path' (before ++ es₁) (es₂ ++ after) ∧
      (∀ e ∈ es₁, inBounds bound none e.1 = false) ∧
      ∀ e ∈ es₂, inBounds bound none e.1 = true := by
  induction h generalizing p lo hi fuel path before after with
  | zero =>
      obtain ⟨fuel, rfl⟩ : ∃ f, fuel = f + 1 := ⟨fuel - 1, by omega⟩
      obtain ⟨i, es, rfl⟩ := s.exists_leaf
      obtain ⟨p₁, hread, hpeeks⟩ := hs.read hc
      -- in a leaf the position is found by search
      obtain ⟨es₁, es₂, hes, hlen, hbelow, habove⟩ :=
        seekEntry_split (Tree.ordered_leaf.mp hord).1 bound
      refine ⟨{ node := (leaf i es).toNode, idx := es₁.length } :: path, p₁, es₁, es₂, ?_, hpeeks,
        hes, ?_, hbelow, habove⟩
      · rw [descendLowerBound, Lib.bind_of_ok hread, hlen]
        rfl
      · rw [Tree.entries_leaf, hes] at hpath
        rw [Tree.toNode_leaf, hes]
        exact .leaf es₁ es₂ hpath
  | succ h ih =>
      obtain ⟨fuel, rfl⟩ : ∃ f, fuel = f + 1 := ⟨fuel - 1, by omega⟩
      obtain ⟨i, ks, cs, rfl⟩ := s.exists_node
      obtain ⟨p₁, hread, hpeeks⟩ := hs.read hc
      have hchain := Tree.ordered_node.mp hord
      -- in a node the children before the routed one are below the bound, those after are not
      obtain ⟨cs₁, c, cs₃, a, b, rfl, hl, hranged, hb', hbelow, habove⟩ := exists_sought hchain hb
      have hmem : c ∈ cs₁ ++ c :: cs₃ := by simp
      have hup := Above.cons ks cs₁ c cs₃ (kids_of_chain hs hchain) (by omega : h < n) hpath
      rw [← nodeAt_peeks hpeeks] at hup
      obtain ⟨path', p₂, es₁, es₂, hrun, hpeeks₂, hes, hat, hbelow', habove'⟩ :=
        ih hpeeks.coherent ((hs.2 c hmem).peeks hpeeks) hranged.ordered hb' hup (by omega)
          (Nat.lt_of_succ_lt_succ hfuel)
      rw [nodeAt_peeks hpeeks] at hat
      refine ⟨path', p₂, cs₁.flatMap Tree.entries ++ es₁, es₂ ++ cs₃.flatMap Tree.entries, ?_,
        hpeeks.trans hpeeks₂, ?_, ?_, ?_, ?_⟩
      · have hchild : ((cs₁ ++ c :: cs₃).map Tree.label).getD cs₁.length 0 = c.label := by simp
        rw [descendLowerBound, Lib.bind_of_ok hread]
        simp only [Tree.toNode_node, ← hl, hchild]
        exact hrun
      · rw [Tree.entries_node, List.flatMap_append, List.flatMap_cons, hes]
        simp only [List.append_assoc]
      · simpa only [List.append_assoc] using hat
      · exact fun e he => (List.mem_append.mp he).elim (hbelow e) (hbelow' e)
      · exact fun e he => (List.mem_append.mp he).elim (habove' e) (habove e)

/-! ## Stepping -/

/-- Crossing to the next leaf: there is none left, or the path stands on its first entry. -/
theorem advance_spec (hc : p.Coherent) (hn : n = p.metadata.pageCount)
    (hpath : Above (nodeAt p) n path mid before after) :
    (∃ p', advanceToNextSubtree path p = .ok none p' ∧ Pager.Peeks p p' ∧ after = []) ∨
    ∃ path' p', advanceToNextSubtree path p = .ok (some path') p' ∧ Pager.Peeks p p' ∧
      At (nodeAt p) n path' (before ++ mid) after ∧ OnEntry path' := by
  subst hn
  generalize hstore : nodeAt p = store at hpath
  induction hpath with
  | nil => exact .inl ⟨p, rfl, Pager.Peeks.refl hc, rfl⟩
  | @cons h ks cs₁ c cs₃ path before after kids height up ih =>
      subst hstore
      cases cs₃ with
      | nil =>
          -- the last child of its node: the next subtree is one of a node further up
          have hstep : advanceToNextSubtree
              ({ node := .internal ks ((cs₁ ++ [c]).map Tree.label), idx := cs₁.length } :: path)
              p = advanceToNextSubtree path p := by
            simp [advanceToNextSubtree]
          rw [hstep, List.flatMap_nil, List.nil_append]
          have hmid : before ++ cs₁.flatMap Tree.entries ++ c.entries =
              before ++ (cs₁ ++ [c]).flatMap Tree.entries := by simp
          rw [hmid]
          exact ih
      | cons c' cs₃ =>
          obtain ⟨hs, a, b, hranged⟩ := kids c' (by simp)
          have hcs : cs₁ ++ c :: c' :: cs₃ = (cs₁ ++ [c]) ++ c' :: cs₃ := by simp
          rw [hcs] at kids up ⊢
          -- a sibling follows: the cursor goes down to its first leaf
          have hup := Above.cons ks (cs₁ ++ [c]) c' cs₃ kids height up
          obtain ⟨path', p₁, hrun, hpeeks, hat, hon⟩ :=
            descendLeftmost_spec hc hs hranged hup height height
          refine .inr ⟨path', p₁, ?_, hpeeks, ?_, hon⟩
          · have hlen : (cs₁ ++ [c]).length = cs₁.length + 1 := by simp
            have hchild : (((cs₁ ++ [c]) ++ c' :: cs₃).map Tree.label).getD (cs₁.length + 1) 0 =
                c'.label := by simp
            have hlt : cs₁.length + 1 < (((cs₁ ++ [c]) ++ c' :: cs₃).map Tree.label).length := by
              simp
            rw [hlen] at hrun
            simp only [advanceToNextSubtree, hlt, if_true, hchild]
            rw [Lib.bind_of_ok (fuel_eq p), Lib.bind_of_ok hrun]
            rfl
          · simpa using hat

/-- Crossing to the previous leaf: there is none left, or the path stands past its last entry. -/
theorem retreat_spec (hc : p.Coherent) (hn : n = p.metadata.pageCount)
    (hpath : Above (nodeAt p) n path mid before after) :
    (∃ p', retreatToPrevSubtree path p = .ok none p' ∧ Pager.Peeks p p' ∧ before = []) ∨
    ∃ path' p', retreatToPrevSubtree path p = .ok (some path') p' ∧ Pager.Peeks p p' ∧
      At (nodeAt p) n path' before (mid ++ after) ∧ PastEntry path' := by
  subst hn
  generalize hstore : nodeAt p = store at hpath
  induction hpath with
  | nil => exact .inl ⟨p, rfl, Pager.Peeks.refl hc, rfl⟩
  | @cons h ks cs₁ c cs₃ path before after kids height up ih =>
      subst hstore
      rcases List.eq_nil_or_concat cs₁ with rfl | ⟨cs₁, c', rfl⟩
      · have hstep : retreatToPrevSubtree
            ({ node := .internal ks (([] ++ c :: cs₃).map Tree.label), idx := 0 } :: path)
            p = retreatToPrevSubtree path p := by
          simp [retreatToPrevSubtree]
        rw [List.length_nil, hstep, List.flatMap_nil, List.append_nil, ← List.append_assoc,
          ← List.flatMap_cons]
        exact ih
      · rw [List.concat_eq_append] at kids up ⊢
        obtain ⟨hs, a, b, hranged⟩ := kids c' (by simp)
        have hcs : (cs₁ ++ [c']) ++ c :: cs₃ = cs₁ ++ c' :: c :: cs₃ := by simp
        have hlen : (cs₁ ++ [c']).length = cs₁.length + 1 := by simp
        rw [hcs] at kids up ⊢
        have hup := Above.cons ks cs₁ c' (c :: cs₃) kids height up
        obtain ⟨path', p₁, hrun, hpeeks, hat, hpast⟩ :=
          descendRightmost_spec hc hs hranged.ordered hup height height
        refine .inr ⟨path', p₁, ?_, hpeeks, ?_, hpast hranged.full⟩
        · have hchild : ((cs₁ ++ c' :: c :: cs₃).map Tree.label).getD cs₁.length 0 = c'.label := by
            simp
          simp only [retreatToPrevSubtree, hlen, Nat.succ_pos, if_true, Nat.add_sub_cancel, hchild]
          rw [Lib.bind_of_ok (fuel_eq p), Lib.bind_of_ok hrun]
          rfl
        · simpa using hat

/-- A path on an entry yields it, unless it has reached the upper bound. -/
theorem nextForward_onEntry (hi : Option Bytes) (hat : At store n path before after)
    (hon : OnEntry path) {fuel : Nat} (hfuel : 0 < fuel) :
    ∃ e after', after = e :: after' ∧
      ((inBounds none hi e.1 = true ∧ ∃ path', nextForward hi fuel path p =
          .ok (some e, path') p ∧ At store n path' (before ++ [e]) after') ∨
        (inBounds none hi e.1 = false ∧ nextForward hi fuel path p = .ok (none, []) p)) := by
  obtain ⟨fuel, rfl⟩ : ∃ f, fuel = f + 1 := ⟨fuel - 1, by omega⟩
  cases hat with
  | @leaf es₁ es₂ path before after up =>
      obtain ⟨e, es₂, rfl⟩ : ∃ e es, es₂ = e :: es := by
        have hidx : es₁.length < ((es₁ ++ es₂).map Prod.fst).length := hon
        exact List.exists_cons_of_length_pos (by simpa using hidx)
      have hk : ((es₁ ++ e :: es₂).map Prod.fst)[es₁.length]? = some e.1 := by simp
      have hv : ((es₁ ++ e :: es₂).map Prod.snd)[es₁.length]? = some e.2 := by simp
      refine ⟨e, es₂ ++ after, rfl, ?_⟩
      -- the source tests the upper bound the other way round
      have hany : hi.any (fun u => decide (u ≤ e.1)) = !inBounds none hi e.1 := by
        cases hi with
        | none => rfl
        | some u =>
            simp only [Option.any_some, inBounds, Bool.true_and]
            rw [← decide_not]
            simp
      cases hin : inBounds none hi e.1 with
      | true =>
          have hcs : (es₁ ++ [e]) ++ es₂ = es₁ ++ e :: es₂ := by simp
          have hlen : (es₁ ++ [e]).length = es₁.length + 1 := by simp
          have hup : Above store n path ((es₁ ++ [e]) ++ es₂) before after := by rwa [hcs]
          have hnext := At.leaf (es₁ ++ [e]) es₂ hup
          rw [hcs, hlen, ← List.append_assoc] at hnext
          refine .inl ⟨rfl, _, ?_, hnext⟩
          rw [nextForward]
          simp only [hk, hv, hany, hin]
          rfl
      | false =>
          refine .inr ⟨rfl, ?_⟩
          rw [nextForward]
          simp only [hk, hv, hany, hin]
          rfl

/-- A forward step yields the next entry below the upper bound, or ends the scan. -/
theorem nextForward_spec (hi : Option Bytes) (hc : p.Coherent) (hn : n = p.metadata.pageCount)
    (hat : At (nodeAt p) n path before after) {fuel : Nat} (hfuel : 2 ≤ fuel) :
    (∃ e after' path' p', after = e :: after' ∧ inBounds none hi e.1 = true ∧
      nextForward hi fuel path p = .ok (some e, path') p' ∧ Pager.Peeks p p' ∧
      At (nodeAt p) n path' (before ++ [e]) after') ∨
    ((∀ e ∈ after.head?, inBounds none hi e.1 = false) ∧
      ∃ p', nextForward hi fuel path p = .ok (none, []) p' ∧ Pager.Peeks p p') := by
  by_cases hon : OnEntry path
  · obtain ⟨e, after', rfl, ⟨hin, path', hrun, hat'⟩ | ⟨hin, hrun⟩⟩ :=
      nextForward_onEntry (p := p) hi hat hon (by omega : 0 < fuel)
    · exact .inl ⟨e, after', path', p, rfl, hin, hrun, Pager.Peeks.refl hc, hat'⟩
    · exact .inr ⟨by simpa using hin, p, hrun, Pager.Peeks.refl hc⟩
  · obtain ⟨fuel, rfl⟩ : ∃ f, fuel = f + 1 := ⟨fuel - 1, by omega⟩
    cases hat with
    | @leaf es₁ es₂ path before after up =>
        have hnil : es₂ = [] := by
          have hidx : ¬ es₁.length < ((es₁ ++ es₂).map Prod.fst).length := hon
          simpa using hidx
        subst hnil
        rw [List.append_nil] at up ⊢
        rw [List.nil_append]
        have hk : (es₁.map Prod.fst)[es₁.length]? = none := by simp
        -- the leaf is exhausted: the step continues in the next one, which is not empty
        have hcross : ∀ {o : Option (List CursorFrame)} {p₁ : Pager Node},
            advanceToNextSubtree path p = .ok o p₁ → nextForward hi (fuel + 1)
              ({ node := .leaf (es₁.map Prod.fst) (es₁.map Prod.snd), idx := es₁.length } :: path)
              p = o.elim (pure (none, [])) (nextForward hi fuel) p₁ := by
          intro o p₁ hadv
          rw [nextForward]
          dsimp only
          generalize (es₁.map Prod.fst)[es₁.length]? = k at hk
          subst hk
          refine (Lib.bind_of_ok hadv).trans ?_
          cases o <;> rfl
        rcases advance_spec hc hn up with
          ⟨p₁, hadv, hpeeks, rfl⟩ | ⟨path', p₁, hadv, hpeeks, hat', hon'⟩
        · exact .inr ⟨by simp, p₁, hcross hadv, hpeeks⟩
        · rw [hcross hadv]
          obtain ⟨e, after', rfl, ⟨hin, path'', hrun, hat''⟩ | ⟨hin, hrun⟩⟩ :=
            nextForward_onEntry (p := p₁) hi hat' hon' (by omega : 0 < fuel)
          · exact .inl ⟨e, after', path'', p₁, rfl, hin, hrun, hpeeks, hat''⟩
          · exact .inr ⟨by simpa using hin, p₁, hrun, hpeeks⟩

/-- A path past an entry yields it, unless it lies below the lower bound. -/
theorem nextBackward_pastEntry (lo : Option Bytes) (hat : At store n path before after)
    (hpast : PastEntry path) {fuel : Nat} (hfuel : 0 < fuel) :
    ∃ before' e, before = before' ++ [e] ∧
      ((inBounds lo none e.1 = true ∧ ∃ path', nextBackward lo fuel path p =
          .ok (some e, path') p ∧ At store n path' before' (e :: after)) ∨
        (inBounds lo none e.1 = false ∧ nextBackward lo fuel path p = .ok (none, []) p)) := by
  obtain ⟨fuel, rfl⟩ : ∃ f, fuel = f + 1 := ⟨fuel - 1, by omega⟩
  cases hat with
  | @leaf es₁ es₂ path before after up =>
      -- the position is behind the entry to return
      obtain ⟨es₁, e, rfl⟩ : ∃ es e, es₁ = es ++ [e] := by
        have hpos : 0 < es₁.length := hpast
        have hne : es₁ ≠ [] := List.length_pos_iff.mp hpos
        exact ⟨_, _, (List.dropLast_append_getLast hne).symm⟩
      have hcs : (es₁ ++ [e]) ++ es₂ = es₁ ++ e :: es₂ := by simp
      have hlen : (es₁ ++ [e]).length = es₁.length + 1 := by simp
      have hk : ((es₁ ++ e :: es₂).map Prod.fst)[es₁.length]? = some e.1 := by simp
      have hv : ((es₁ ++ e :: es₂).map Prod.snd)[es₁.length]? = some e.2 := by simp
      rw [hcs] at up ⊢
      rw [hlen]
      refine ⟨before ++ es₁, e, by rw [List.append_assoc], ?_⟩
      have hany : lo.any (fun l => decide (e.1 < l)) = !inBounds lo none e.1 := by
        cases lo with
        | none => rfl
        | some l =>
            simp only [Option.any_some, inBounds, Bool.and_true]
            rw [← decide_not]
            simp
      cases hin : inBounds lo none e.1 with
      | true =>
          refine .inl ⟨rfl, _, ?_, .leaf es₁ (e :: es₂) up⟩
          rw [nextBackward]
          simp only [Nat.succ_pos, if_true, Nat.add_sub_cancel, hk, hv, hany, hin]
          rfl
      | false =>
          refine .inr ⟨rfl, ?_⟩
          rw [nextBackward]
          simp only [Nat.succ_pos, if_true, Nat.add_sub_cancel, hk, hv, hany, hin]
          rfl

/-- A backward step yields the previous entry at or above the lower bound, or ends the scan. -/
theorem nextBackward_spec (lo : Option Bytes) (hc : p.Coherent) (hn : n = p.metadata.pageCount)
    (hat : At (nodeAt p) n path before after) {fuel : Nat} (hfuel : 2 ≤ fuel) :
    (∃ before' e path' p', before = before' ++ [e] ∧ inBounds lo none e.1 = true ∧
      nextBackward lo fuel path p = .ok (some e, path') p' ∧ Pager.Peeks p p' ∧
      At (nodeAt p) n path' before' (e :: after)) ∨
    ((∀ e ∈ before.getLast?, inBounds lo none e.1 = false) ∧
      ∃ p', nextBackward lo fuel path p = .ok (none, []) p' ∧ Pager.Peeks p p') := by
  by_cases hpast : PastEntry path
  · obtain ⟨before', e, rfl, ⟨hin, path', hrun, hat'⟩ | ⟨hin, hrun⟩⟩ :=
      nextBackward_pastEntry (p := p) lo hat hpast (by omega : 0 < fuel)
    · exact .inl ⟨before', e, path', p, rfl, hin, hrun, Pager.Peeks.refl hc, hat'⟩
    · exact .inr ⟨by simpa using hin, p, hrun, Pager.Peeks.refl hc⟩
  · obtain ⟨fuel, rfl⟩ : ∃ f, fuel = f + 1 := ⟨fuel - 1, by omega⟩
    cases hat with
    | @leaf es₁ es₂ path before after up =>
        have hnil : es₁ = [] := by
          have hpos : ¬ 0 < es₁.length := hpast
          simpa using hpos
        subst hnil
        rw [List.append_nil]
        -- the position is the start of its leaf: the step continues in the one before it
        have hcross : ∀ {o : Option (List CursorFrame)} {p₁ : Pager Node},
            retreatToPrevSubtree path p = .ok o p₁ → nextBackward lo (fuel + 1)
              ({ node := .leaf (([] ++ es₂).map Prod.fst) (([] ++ es₂).map Prod.snd),
                 idx := ([] : List Entry).length } :: path) p =
              o.elim (pure (none, [])) (nextBackward lo fuel) p₁ := by
          intro o p₁ hret
          rw [nextBackward]
          refine (Lib.bind_of_ok hret).trans ?_
          cases o <;> rfl
        rcases retreat_spec hc hn up with
          ⟨p₁, hret, hpeeks, rfl⟩ | ⟨path', p₁, hret, hpeeks, hat', hpast'⟩
        · exact .inr ⟨by simp, p₁, hcross hret, hpeeks⟩
        · rw [hcross hret]
          obtain ⟨before', e, rfl, ⟨hin, path'', hrun, hat''⟩ | ⟨hin, hrun⟩⟩ :=
            nextBackward_pastEntry (p := p₁) lo hat' hpast' (by omega : 0 < fuel)
          · exact .inl ⟨before', e, path'', p₁, rfl, hin, hrun, hpeeks, hat''⟩
          · exact .inr ⟨by simpa using hin, p₁, hrun, hpeeks⟩

/-- What a cursor has still to yield, in the order it yields it. -/
inductive Remaining (p : Pager Node) : Cursor → List Entry → Prop
  | done {dir : Direction} {lo hi : Option Bytes} : Remaining p (Cursor.mk dir lo hi []) []
  | forward {lo hi : Option Bytes} {path : List CursorFrame} {before after : List Entry} :
      At (nodeAt p) p.metadata.pageCount path before after →
      Remaining p (Cursor.mk .forward lo hi path)
        (after.takeWhile fun e => inBounds none hi e.1)
  | backward {lo hi : Option Bytes} {path : List CursorFrame} {before after : List Entry} :
      At (nodeAt p) p.metadata.pageCount path before after →
      Remaining p (Cursor.mk .backward lo hi path)
        (before.reverse.takeWhile fun e => inBounds lo none e.1)

theorem nextEntry_forward {fuel : Nat} {lo hi : Option Bytes} (hfuel : p.metadata.pageCount = fuel)
    {r : Option Entry × List CursorFrame} (hrun : nextForward hi fuel path p = .ok r p') :
    nextEntry (Cursor.mk .forward lo hi path) p = .ok (r.1, Cursor.mk .forward lo hi r.2) p' := by
  subst hfuel
  unfold nextEntry
  simp only
  rw [Lib.bind_of_ok (fuel_eq p), Lib.bind_of_ok hrun]
  rfl

theorem nextEntry_backward {fuel : Nat} {lo hi : Option Bytes}
    (hfuel : p.metadata.pageCount = fuel) {r : Option Entry × List CursorFrame}
    (hrun : nextBackward lo fuel path p = .ok r p') :
    nextEntry (Cursor.mk .backward lo hi path) p =
      .ok (r.1, Cursor.mk .backward lo hi r.2) p' := by
  subst hfuel
  unfold nextEntry
  simp only
  rw [Lib.bind_of_ok (fuel_eq p), Lib.bind_of_ok hrun]
  rfl

/-- A step yields the first of the remaining entries, and nothing when there is none. -/
theorem nextEntry_spec {c : Cursor} {rest : List Entry} (hc : p.Coherent)
    (hcount : 2 ≤ p.metadata.pageCount) (hrest : Remaining p c rest) :
    ∃ c' p', c.nextEntry p = .ok (rest.head?, c') p' ∧ Pager.Peeks p p' ∧
      Remaining p' c' rest.tail := by
  cases hrest with
  | @done dir lo hi =>
      refine ⟨Cursor.mk dir lo hi [], p, ?_, Pager.Peeks.refl hc, .done⟩
      cases dir with
      | forward =>
        exact nextEntry_forward rfl (show nextForward hi _ [] p = _ by rw [nextForward]; rfl)
      | backward =>
        exact nextEntry_backward rfl (show nextBackward lo _ [] p = _ by rw [nextBackward]; rfl)
  | @forward lo hi path before after hat =>
      rcases nextForward_spec hi hc rfl hat hcount with
        ⟨e, after', path', p', rfl, hin, hrun, hpeeks, hat'⟩ | ⟨hend, p', hrun, hpeeks⟩
      · rw [← nodeAt_peeks hpeeks, ← peeks_pageCount hpeeks] at hat'
        -- an entry in the bounds comes next, and the rest goes on behind it
        have htake : (e :: after').takeWhile (fun e => inBounds none hi e.1) =
            e :: after'.takeWhile fun e => inBounds none hi e.1 := List.takeWhile_cons_of_pos hin
        rw [htake]
        exact ⟨_, p', nextEntry_forward rfl hrun, hpeeks, .forward hat'⟩
      -- an entry out of the bounds, or none: the cursor is done and stays so
      · have hnil : (after.takeWhile fun e => inBounds none hi e.1) = [] := by
          cases after with
          | nil => rfl
          | cons e after => exact List.takeWhile_cons_of_neg (by simp [hend e rfl])
        rw [hnil]
        exact ⟨_, p', nextEntry_forward rfl hrun, hpeeks, .done⟩
  | @backward lo hi path before after hat =>
      rcases nextBackward_spec lo hc rfl hat hcount with
        ⟨before', e, path', p', rfl, hin, hrun, hpeeks, hat'⟩ | ⟨hend, p', hrun, hpeeks⟩
      · rw [← nodeAt_peeks hpeeks, ← peeks_pageCount hpeeks] at hat'
        have htake : (before' ++ [e]).reverse.takeWhile (fun e => inBounds lo none e.1) =
            e :: before'.reverse.takeWhile fun e => inBounds lo none e.1 := by
          rw [List.reverse_append, List.reverse_singleton, List.singleton_append]
          exact List.takeWhile_cons_of_pos hin
        rw [htake]
        exact ⟨_, p', nextEntry_backward rfl hrun, hpeeks, .backward hat'⟩
      · have hnil : (before.reverse.takeWhile fun e => inBounds lo none e.1) = [] := by
          rcases List.eq_nil_or_concat before with rfl | ⟨before, e, rfl⟩
          · rfl
          · rw [List.concat_eq_append] at hend ⊢
            rw [List.reverse_append, List.reverse_singleton, List.singleton_append]
            exact List.takeWhile_cons_of_neg (by simp [hend e (by simp)])
        rw [hnil]
        exact ⟨_, p', nextEntry_backward rfl hrun, hpeeks, .done⟩

/-- Collecting yields the remaining entries. -/
theorem collectLoop_spec {c : Cursor} {rest : List Entry} (hc : p.Coherent)
    (hcount : 2 ≤ p.metadata.pageCount) (hrest : Remaining p c rest) {fuel : Nat}
    (hfuel : rest.length < fuel) (out : List Entry) :
    ∃ p', collectLoop fuel c out p = .ok (out ++ rest) p' ∧ Pager.Peeks p p' := by
  induction fuel generalizing p c rest out with
  | zero => omega
  | succ fuel ih =>
      obtain ⟨c', p₁, hnext, hpeeks, hrest'⟩ := nextEntry_spec hc hcount hrest
      rw [collectLoop, Lib.bind_of_ok hnext]
      cases rest with
      | nil => exact ⟨p₁, by rw [List.append_nil]; rfl, hpeeks⟩
      | cons e rest =>
          obtain ⟨p₂, hloop, hpeeks₂⟩ := ih hpeeks.coherent
            (by rw [peeks_pageCount hpeeks]; exact hcount) hrest'
            (Nat.lt_of_succ_lt_succ hfuel) (out ++ [e])
          refine ⟨p₂, ?_, hpeeks.trans hpeeks₂⟩
          rw [List.append_assoc, List.singleton_append] at hloop
          exact hloop

/-! ## Opening -/

/-- The entries with a property that the entries before one with it have too are an initial
segment. -/
theorem takeWhile_eq_filter {α : Type} {f : α → Bool} {l : List α}
    (hl : l.Pairwise fun a b => f b = true → f a = true) : l.takeWhile f = l.filter f := by
  induction l with
  | nil => rfl
  | cons a l ih =>
      obtain ⟨hfirst, hl⟩ := List.pairwise_cons.mp hl
      cases ha : f a with
      | true => rw [List.takeWhile_cons_of_pos ha, List.filter_cons_of_pos ha, ih hl]
      | false =>
          rw [List.takeWhile_cons_of_neg (by simp [ha]), List.filter_cons_of_neg (by simp [ha])]
          refine (List.filter_eq_nil_iff.mpr fun b hb hfb => ?_).symm
          rw [hfirst b hb hfb] at ha
          cases ha

theorem inBounds_and (lo hi : Option Bytes) (k : Bytes) :
    (inBounds lo none k && inBounds none hi k) = inBounds lo hi k := by
  cases lo <;> cases hi <;> simp [inBounds]

/-- A bound as an upper one: what is not at or above it is below it. -/
theorem inBounds_upper (b k : Bytes) : inBounds none (some b) k = !inBounds (some b) none k := by
  simp only [inBounds, Bool.true_and, Bool.and_true]
  rw [← decide_not]
  simp

/-- The entries of a listing that a scan yields, in order. -/
def scanned (dir : Direction) (lo hi : Option Bytes) (es : List Entry) : List Entry :=
  match dir with
  | .forward => es.filter fun e => inBounds lo hi e.1
  | .backward => (es.filter fun e => inBounds lo hi e.1).reverse

/-- The entries in a range are those behind its lower end, up to the upper bound. -/
theorem takeWhile_after (hs : OrdMap.Sorted (before ++ after))
    (hbelow : ∀ e ∈ before, inBounds lo none e.1 = false)
    (habove : ∀ e ∈ after, inBounds lo none e.1 = true) (hi : Option Bytes) :
    (after.takeWhile fun e => inBounds none hi e.1) = scanned .forward lo hi (before ++ after) := by
  have hnone : before.filter (fun e => inBounds lo hi e.1) = [] :=
    List.filter_eq_nil_iff.mpr fun e he => by rw [← inBounds_and, hbelow e he]; simp
  have hsome : after.filter (fun e => inBounds lo hi e.1) =
      after.filter fun e => inBounds none hi e.1 :=
    List.filter_congr fun e he => by rw [← inBounds_and lo hi, habove e he, Bool.true_and]
  rw [scanned, List.filter_append, hnone, hsome, List.nil_append]
  refine takeWhile_eq_filter ((OrdMap.sorted_append.mp hs).2.1.imp fun {a b} hab hb => ?_)
  rw [inBounds_iff] at hb ⊢
  exact ⟨(fun _ h => nomatch h), fun u hu => lt_trans hab (hb.2 u hu)⟩

/-- They are also those before its upper end, read backwards down to the lower bound. -/
theorem takeWhile_before (hs : OrdMap.Sorted (before ++ after))
    (hbelow : ∀ e ∈ before, inBounds none hi e.1 = true)
    (habove : ∀ e ∈ after, inBounds none hi e.1 = false) (lo : Option Bytes) :
    (before.reverse.takeWhile fun e => inBounds lo none e.1) =
      scanned .backward lo hi (before ++ after) := by
  have hnone : after.filter (fun e => inBounds lo hi e.1) = [] :=
    List.filter_eq_nil_iff.mpr fun e he => by rw [← inBounds_and, habove e he]; simp
  have hsome : before.filter (fun e => inBounds lo hi e.1) =
      before.filter fun e => inBounds lo none e.1 :=
    List.filter_congr fun e he => by rw [← inBounds_and lo hi, hbelow e he, Bool.and_true]
  rw [scanned, List.filter_append, hnone, hsome, List.append_nil, ← List.filter_reverse]
  refine takeWhile_eq_filter
    (List.pairwise_reverse.mpr ((OrdMap.sorted_append.mp hs).1.imp fun {a b} hab ha => ?_))
  rw [inBounds_iff] at ha ⊢
  exact ⟨fun l hl => le_trans (ha.1 l hl) (le_of_lt hab), (fun _ h => nomatch h)⟩

/-- An opened cursor has the entries in its range to yield, from the end its direction starts
at. -/
theorem openAt_spec {s : Tree Nat h} (hc : p.Coherent) (hs : Stands (nodeAt p) s)
    (hord : s.Ordered none none) (hheight : h < p.metadata.pageCount) (dir : Direction)
    (lo hi : Option Bytes) :
    ∃ c p', openAt s.label dir lo hi p = .ok c p' ∧ Pager.Peeks p p' ∧
      Remaining p' c (scanned dir lo hi s.entries) := by
  have hsorted := hord.entries_sorted.1
  -- the descent to a bound splits the entries into those below it and the rest
  have hseek : ∀ bound, ∃ path p' es₁ es₂,
      descendLowerBound bound p.metadata.pageCount s.label [] p = .ok path p' ∧
        Pager.Peeks p p' ∧ s.entries = es₁ ++ es₂ ∧
        At (nodeAt p') p'.metadata.pageCount path es₁ es₂ ∧
        (∀ e ∈ es₁, inBounds bound none e.1 = false) ∧
        ∀ e ∈ es₂, inBounds bound none e.1 = true := by
    intro bound
    obtain ⟨path, p', es₁, es₂, hrun, hpeeks, hes, hat, hbelow, habove⟩ :=
      descendLowerBound_spec hc hs hord (fun b _ => Shape.inRange_unbounded b) .nil hheight hheight
    rw [List.nil_append, List.append_nil, ← nodeAt_peeks hpeeks, ← peeks_pageCount hpeeks] at hat
    exact ⟨path, p', es₁, es₂, hrun, hpeeks, hes, hat, hbelow, habove⟩
  cases dir with
  | forward =>
      obtain ⟨path, p', es₁, es₂, hrun, hpeeks, hes, hat, hbelow, habove⟩ := hseek lo
      rw [hes] at hsorted ⊢
      rw [← takeWhile_after hsorted hbelow habove]
      refine ⟨Cursor.mk .forward lo hi path, p', ?_, hpeeks, .forward hat⟩
      unfold openAt
      simp only
      rw [Lib.bind_of_ok (fuel_eq p), Lib.bind_of_ok hrun]
      rfl
  | backward =>
      cases hi with
      | none =>
          obtain ⟨path, p', hrun, hpeeks, hat, -⟩ :=
            descendRightmost_spec hc hs hord .nil hheight hheight
          rw [List.nil_append, ← nodeAt_peeks hpeeks, ← peeks_pageCount hpeeks] at hat
          -- no upper bound: the cursor starts behind the last entry
          have hempty : OrdMap.Sorted (s.entries ++ []) := by simpa using hsorted
          have hall := takeWhile_before hempty
            (fun e _ => show inBounds none none e.1 = true from rfl) (fun e he => nomatch he) lo
          rw [List.append_nil] at hall
          rw [← hall]
          refine ⟨Cursor.mk .backward lo none path, p', ?_, hpeeks, .backward hat⟩
          unfold openAt
          simp only
          rw [Lib.bind_of_ok (fuel_eq p), Lib.bind_of_ok hrun]
          rfl
      | some b =>
          obtain ⟨path, p', es₁, es₂, hrun, hpeeks, hes, hat, hbelow, habove⟩ := hseek (some b)
          rw [hes] at hsorted ⊢
          rw [← takeWhile_before hsorted
            (fun e he => by rw [inBounds_upper, hbelow e he]; rfl)
            (fun e he => by rw [inBounds_upper, habove e he]; rfl)]
          refine ⟨Cursor.mk .backward lo (some b) path, p', ?_, hpeeks, .backward hat⟩
          unfold openAt
          simp only
          rw [Lib.bind_of_ok (fuel_eq p), Lib.bind_of_ok hrun]
          rfl

end Cursor

/-! ## Whole scans -/

/-- A tree has no more entries than its pages can hold. -/
theorem entries_length_le {h : Nat} {s : Tree Nat h} (hpre : s.Pre lo hi) (hsize : s.size ≤ cap) :
    s.entries.length ≤ s.labels.length * cap := by
  induction h generalizing lo hi with
  | zero =>
      obtain ⟨i, es, rfl⟩ := s.exists_leaf
      have hle : (leaf i es).cells.length ≤ (leaf i es).cells.sum :=
        List.length_le_sum_of_one_le _ fun c hc => (hpre.cells_le c hc).1
      have hlen : (leaf i es).cells.length = es.length := by simp
      unfold Tree.size at hsize
      rw [Tree.labels_leaf, Tree.entries_leaf, List.length_singleton]
      omega
  | succ h ih =>
      obtain ⟨i, ks, cs, rfl⟩ := s.exists_node
      obtain ⟨-, hchain⟩ := Tree.pre_node.mp hpre
      have hsum : ∀ l : List (Tree Nat h), (∀ c ∈ l, c ∈ cs) →
          (l.flatMap Tree.entries).length ≤ (l.flatMap Tree.labels).length * cap := by
        intro l hl
        induction l with
        | nil => simp
        | cons c l ihl =>
            obtain ⟨a, b, hwf⟩ := hchain.exists_bounds (hl c (List.mem_cons_self ..))
            have h₁ := ih hwf.pre hwf.size
            have h₂ := ihl fun c' hc' => hl c' (List.mem_cons_of_mem _ hc')
            rw [List.flatMap_cons, List.flatMap_cons, List.length_append, List.length_append,
              Nat.add_mul]
            omega
      have := hsum cs fun c hc => hc
      rw [Tree.entries_node, Tree.labels_node, List.length_cons, Nat.succ_mul]
      omega

/-- A range scan returns the bindings in the range, in ascending key order. -/
theorem range_spec (hp : p.Ok) (ht : Holds p t) (lo hi : Option Bytes) :
    ∃ p', range t.root lo hi p = .ok (t.entries.filter fun e => inBounds lo hi e.1) p' ∧
      Pager.Reads p p' := by
  obtain ⟨c, p₁, hopen, hpeeks, hrest⟩ := Cursor.openAt_spec hp.coherent
    (ht.held.stands ht.wf.pre) ht.wf.pre.ordered (ht.height_lt hp) .forward lo hi
  have hcount : 2 ≤ p₁.metadata.pageCount := by
    rw [peeks_pageCount hpeeks]
    exact hp.count
  have hlen : (Cursor.scanned .forward lo hi t.2.entries).length <
      p₁.metadata.pageCount * cap + 1 := by
    have h₁ := List.length_filter_le (fun e : Entry => inBounds lo hi e.1) t.2.entries
    have h₂ := entries_length_le ht.wf.pre ht.wf.size
    have h₃ := Nat.mul_le_mul_right cap (le_of_lt (length_lt_of_owned hp ht.nodup ht.owned))
    rw [peeks_pageCount hpeeks]
    unfold PageTree.pages at h₃
    unfold Cursor.scanned
    simp only
    omega
  obtain ⟨p₂, hcollect, hpeeks₂⟩ :=
    Cursor.collectLoop_spec hpeeks.coherent hcount hrest hlen []
  refine ⟨p₂, ?_, (hpeeks.trans hpeeks₂).reads hp⟩
  unfold range PageTree.root
  rw [Lib.bind_of_ok hopen]
  exact hcollect

end Edb.BTree
