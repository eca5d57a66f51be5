import Mathlib.Data.List.Chain
import Edb.Lib.Result
import Edb.BTree.Read

/-!
# The structural check on arbitrary pages

`checkRec` is the check of a subtree as a function of what the pages show, whatever that is: pages
that do not decode, shared children, cycles. The check keeps no set of visited pages. It ends
because a page visited again below itself cannot pass: every call is given a range of keys, the
ranges shrink along a path, and those of the children of a node leave out one of its keys, all but
the last child of a node with a single key equal to the lower bound. That one visits the page
again, and then fails in its first child, whose range is empty (`Calls.again`).
-/

namespace Edb.BTree

open Edb.Lib

/-- What a child adds to its earlier siblings, as `joinChild`. -/
def joinDepth (acc : Option Nat × Nat × Nat) (r : Nat × Nat × Nat) :
    Except BTreeError (Option Nat × Nat × Nat) :=
  match acc.1 with
  | none => .ok (some r.1, acc.2.1 + r.2.1, acc.2.2 + r.2.2)
  | some prev =>
      if prev ≠ r.1 then .error (.corruption .unevenLeafDepth)
      else .ok (some prev, acc.2.1 + r.2.1, acc.2.2 + r.2.2)

/-- A page to check with the bounds its ancestors prescribe. -/
abbrev Visit := Nat × Option Bytes × Option Bytes

/-- `validateRec` over what the pages show. -/
def checkRec (store : Store) :
    Nat → Nat → Option Bytes → Option Bytes → Bool → Except BTreeError (Nat × Nat × Nat)
  | 0, _, _, _, _ => .error .outOfFuel
  | fuel + 1, id, lower, upper, isRoot => do
      match ← store id with
      | .leaf keys vals =>
          if !isRoot && keys.isEmpty then .error (.corruption (.underfull id))
          else if keys.length ≠ vals.length then .error (.corruption (.keysNotSorted id))
          else if !keys.all (inBounds lower upper) then
            .error (.corruption (.separatorMismatch id))
          else pure (1, keys.length, 1)
      | .internal keys children =>
          if children.length < 2 ∨ children.length ≠ keys.length + 1 then
            .error (.corruption (.emptyInternal id))
          else if !keys.all (inBounds lower upper) then
            .error (.corruption (.separatorMismatch id))
          else do
            let (depth, entries, nodes) ← (childBounds lower upper keys children).foldlM
              (fun acc b => do joinDepth acc (← checkRec store fuel b.1 b.2.1 b.2.2 false))
              (none, 0, 0)
            pure (depth.getD 0 + 1, entries, nodes + 1)

/-- The check of one child. -/
def checkStep (store : Store) (fuel : Nat) (acc : Option Nat × Nat × Nat) (b : Visit) :
    Except BTreeError (Option Nat × Nat × Nat) := do
  joinDepth acc (← checkRec store fuel b.1 b.2.1 b.2.2 false)

section Reports

variable {p : Pager Node}

/-- Joining the numbers of a child to those of its siblings reads no page. -/
theorem joinChild_reports (hc : p.Coherent) (acc : Option Nat × Nat × Nat) (r : Nat × Nat × Nat) :
    Reports (joinChild acc r) p (joinDepth acc r) := by
  unfold joinChild joinDepth
  cases acc.1 with
  | none => exact Reports.ret hc _
  | some prev =>
      by_cases h : prev ≠ r.1
      · simp only [if_pos h]
        exact Reports.throw hc _
      · simp only [if_neg h]
        exact Reports.ret hc _

/-- The structural check depends on what the pages show only. -/
theorem validateRec_reports (hc : p.Coherent) (fuel id : Nat) (lo hi : Option Bytes)
    (isRoot : Bool) :
    Reports (validateRec fuel id lo hi isRoot) p (checkRec (nodeAt p) fuel id lo hi isRoot) := by
  induction fuel generalizing p id lo hi isRoot with
  | zero => exact Reports.throw hc _
  | succ fuel ih =>
      -- the pager moves on from child to child, but what its pages show stays
      have hkids : ∀ (bs : List Visit) {p' : Pager Node} (acc : Option Nat × Nat × Nat),
          Pager.Peeks p p' → Reports (bs.foldlM (validateStep fuel) acc) p'
            (bs.foldlM (checkStep (nodeAt p) fuel) acc) := by
        intro bs
        induction bs with
        | nil => exact fun acc hpeeks => Reports.ret hpeeks.coherent acc
        | cons b bs ihbs =>
            intro p' acc hpeeks
            rw [List.foldlM_cons, List.foldlM_cons]
            refine Reports.bind ?_ fun acc' p'' hpeeks' _ => ihbs acc' (hpeeks.trans hpeeks')
            have hb := ih hpeeks.coherent b.1 b.2.1 b.2.2 false
            rw [nodeAt_peeks hpeeks] at hb
            exact Reports.bind hb fun r p'' hpeeks' _ => joinChild_reports hpeeks'.coherent acc r
      unfold validateRec checkRec
      refine Reports.bind (readNode_reports hc id) fun n p' hpeeks _ => ?_
      have hc' := hpeeks.coherent
      cases n with
      | leaf keys vals =>
          simp only
          split
          · exact Reports.throw hc' _
          · split
            · exact Reports.throw hc' _
            · split
              · exact Reports.throw hc' _
              · exact Reports.ret hc' _
      | internal keys children =>
          simp only
          split
          · exact Reports.throw hc' _
          · split
            · exact Reports.throw hc' _
            · refine Reports.bind (hkids _ _ hpeeks) fun r p'' hpeeks' _ => ?_
              exact Reports.ret hpeeks'.coherent _

end Reports

/-! ## One call -/

section Calls

variable {store : Store} {fuel id : Nat} {lo hi : Option Bytes} {isRoot : Bool}

theorem all_inBounds_iff {ks : List Bytes} :
    ks.all (inBounds lo hi) = true ↔ ∀ k ∈ ks, InRange lo hi k := by
  rw [List.all_eq_true]
  exact forall₂_congr fun k _ => inBounds_iff

/-- The conditions under which an internal node hands the check on to its children. -/
structure Recurses (store : Store) (v : Visit) (keys : List Bytes) (children : List Nat) :
    Prop where
  shows : store v.1 = .ok (.internal keys children)
  two : 2 ≤ children.length
  length : children.length = keys.length + 1
  inRange : ∀ k ∈ keys, InRange v.2.1 v.2.2 k

/-- The outcome at a page that shows an internal node, its checks passed or not. -/
theorem checkRec_internal (fuel : Nat) (lo hi : Option Bytes) (isRoot : Bool) {keys : List Bytes}
    {children : List Nat} (hshow : store id = .ok (.internal keys children)) :
    (Recurses store (id, lo, hi) keys children ∧ checkRec store (fuel + 1) id lo hi isRoot =
      ((childBounds lo hi keys children).foldlM (checkStep store fuel) (none, 0, 0) >>= fun r =>
        .ok (r.1.getD 0 + 1, r.2.1, r.2.2 + 1))) ∨
    ∃ c, checkRec store (fuel + 1) id lo hi isRoot = .error (.corruption c) := by
  rw [checkRec, hshow, Result.ok_bind]
  simp only
  split
  · exact .inr ⟨_, rfl⟩
  next hlen =>
    split
    · exact .inr ⟨_, rfl⟩
    next hall =>
      refine .inl ⟨⟨hshow, by omega, by omega, ?_⟩, rfl⟩
      exact all_inBounds_iff.mp (by simpa using hall)

/-- The outcome at a page that shows a leaf. -/
theorem checkRec_leaf (fuel : Nat) (lo hi : Option Bytes) (isRoot : Bool) {keys vals : List Bytes}
    (hshow : store id = .ok (.leaf keys vals)) :
    ((isRoot = false → keys ≠ []) ∧ keys.length = vals.length ∧ (∀ k ∈ keys, InRange lo hi k) ∧
      checkRec store (fuel + 1) id lo hi isRoot = .ok (1, keys.length, 1)) ∨
    ∃ c, checkRec store (fuel + 1) id lo hi isRoot = .error (.corruption c) := by
  rw [checkRec, hshow, Result.ok_bind]
  simp only
  split
  · exact .inr ⟨_, rfl⟩
  next hempty =>
    split
    · exact .inr ⟨_, rfl⟩
    next hlen =>
      split
      · exact .inr ⟨_, rfl⟩
      next hall =>
        refine .inl ⟨fun hroot => ?_, not_not.mp hlen, all_inBounds_iff.mp (by simpa using hall),
          rfl⟩
        simpa [hroot] using hempty

/-- A page that shows no node fails the check. -/
theorem checkRec_error {e : BTreeError} (hshow : store id = .error e) :
    checkRec store (fuel + 1) id lo hi isRoot = .error e := by
  rw [checkRec, hshow, Result.error_bind]

/-- The page passes the check as the child of some node. -/
def Passes (store : Store) (v : Visit) : Prop :=
  ∃ fuel r, checkRec store fuel v.1 v.2.1 v.2.2 false = .ok r

/-- The page shows a node that holds a key, and its keys lie within the bounds. -/
def Fits (store : Store) (v : Visit) : Prop :=
  ∃ n, store v.1 = .ok n ∧ n.keys ≠ [] ∧ ∀ k ∈ n.keys, InRange v.2.1 v.2.2 k

theorem Recurses.fits {v : Visit} {keys : List Bytes} {children : List Nat}
    (h : Recurses store v keys children) : Fits store v := by
  refine ⟨_, h.shows, fun hnil => ?_, h.inRange⟩
  have h₁ := h.two
  have h₂ := h.length
  change keys = [] at hnil
  rw [hnil, List.length_nil] at h₂
  omega

/-- A page that passes as a child holds a key within its bounds. -/
theorem Passes.fits {v : Visit} (h : Passes store v) : Fits store v := by
  obtain ⟨fuel, r, hrun⟩ := h
  cases fuel with
  | zero => cases hrun
  | succ fuel =>
      cases hshow : store v.1 with
      | error e =>
          rw [checkRec_error hshow] at hrun
          cases hrun
      | ok n =>
          cases n with
          | leaf keys vals =>
              rcases checkRec_leaf fuel v.2.1 v.2.2 false hshow with
                ⟨hne, -, hall, -⟩ | ⟨c, hfail⟩
              · exact ⟨_, hshow, hne rfl, hall⟩
              · rw [hfail] at hrun
                cases hrun
          | internal keys children =>
              rcases checkRec_internal fuel v.2.1 v.2.2 false hshow with
                ⟨hrec, -⟩ | ⟨c, hfail⟩
              · exact hrec.fits
              · rw [hfail] at hrun
                cases hrun

/-- While checking `v`, the check calls itself on `w`: the bounds of a child, the children before
it having passed. -/
inductive Calls (store : Store) : Visit → Visit → Prop
  | child {v w : Visit} {keys : List Bytes} {children : List Nat} {before after : List Visit} :
      Recurses store v keys children →
      childBounds v.2.1 v.2.2 keys children = before ++ w :: after →
      (∀ b ∈ before, Passes store b) → Calls store v w

theorem Calls.fits {v w : Visit} (h : Calls store v w) : Fits store v := by
  cases h with
  | child hrec => exact hrec.fits

/-! ## Bounds along a path -/

/-- The bounds of the child at an index. -/
theorem childBounds_getElem? (lo hi : Option Bytes) (ks : List Bytes) (cs : List Nat) (i : Nat) :
    (childBounds lo hi ks cs)[i]? = cs[i]?.map fun c =>
      (c, if i = 0 then lo else ks[i - 1]?, if i = ks.length then hi else ks[i]?) := by
  unfold childBounds
  rw [List.getElem?_map, List.getElem?_zipIdx, Option.map_map]
  cases cs[i]? <;> simp

/-- A child's range lies in its parent's. -/
theorem Calls.nested {v w : Visit} (h : Calls store v w) {k : Bytes}
    (hk : InRange w.2.1 w.2.2 k) : InRange v.2.1 v.2.2 k := by
  cases h with
  | @child keys children before after hrec hbounds _ =>
      have hget := childBounds_getElem? v.2.1 v.2.2 keys children before.length
      rw [hbounds] at hget
      simp only [List.getElem?_append_right (Nat.le_refl _), Nat.sub_self,
        List.getElem?_cons_zero] at hget
      obtain ⟨c, hc, rfl⟩ := Option.map_eq_some_iff.mp hget.symm
      simp only at hk
      constructor
      · intro l hl
        by_cases hzero : before.length = 0
        · rw [if_pos hzero] at hk
          exact hk.1 l hl
        · rw [if_neg hzero] at hk
          have hlt : before.length - 1 < keys.length := by
            have := (List.getElem?_eq_some_iff.mp hc).1
            have := hrec.length
            omega
          have hsep := hrec.inRange _ (List.getElem_mem hlt)
          exact le_trans (hsep.1 l hl) (hk.1 _ (List.getElem?_eq_getElem hlt))
      · intro u hu
        by_cases hlast : before.length = keys.length
        · rw [if_pos hlast] at hk
          exact hk.2 u hu
        · rw [if_neg hlast] at hk
          have hlt : before.length < keys.length := by
            have := (List.getElem?_eq_some_iff.mp hc).1
            have := hrec.length
            omega
          have hsep := hrec.inRange _ (List.getElem_mem hlt)
          exact lt_trans (hk.2 _ (List.getElem?_eq_getElem hlt)) (hsep.2 u hu)

theorem nested_of_reaches {v w : Visit} (h : Relation.ReflTransGen (Calls store) v w) {k : Bytes}
    (hk : InRange w.2.1 w.2.2 k) : InRange v.2.1 v.2.2 k := by
  induction h with
  | refl => exact hk
  | tail _ hstep ih => exact ih (hstep.nested hk)

/-- Every key of a node lies in the range of one of its children only if the node has one key and
the child is the last: every other child's range leaves out one of its two bounding keys. -/
theorem Calls.covers_keys {v w : Visit} (hsorted : ∀ id n, store id = .ok n → n.Readable)
    {n : Node} (hshow : store v.1 = .ok n) (h : Calls store v w)
    (hall : ∀ k ∈ n.keys, InRange w.2.1 w.2.2 k) : ∃ k c₀ c₁,
      store v.1 = .ok (.internal [k] [c₀, c₁]) ∧ w = (c₁, some k, v.2.2) ∧
        Passes store (c₀, v.2.1, some k) := by
  cases h with
  | @child keys children before after hrec hbounds hbefore =>
      have hnode : n = .internal keys children := by
        have := hshow.symm.trans hrec.shows
        cases this
        rfl
      subst hnode
      change ∀ k ∈ keys, InRange w.2.1 w.2.2 k at hall
      have hlen := hrec.length
      have htwo := hrec.two
      obtain ⟨-, -, hasc⟩ := hsorted _ _ hrec.shows
      have hget := childBounds_getElem? v.2.1 v.2.2 keys children before.length
      rw [hbounds] at hget
      simp only [List.getElem?_append_right (Nat.le_refl _), Nat.sub_self,
        List.getElem?_cons_zero] at hget
      obtain ⟨c, hc, hw⟩ := Option.map_eq_some_iff.mp hget.symm
      have hpos : before.length < children.length := (List.getElem?_eq_some_iff.mp hc).1
      -- its upper bound is no key of the node
      have hlast : before.length = keys.length := by
        by_contra hne
        have hlt : before.length < keys.length := by omega
        have := (hall _ (List.getElem_mem hlt)).2 keys[before.length] (by
          rw [← hw]
          simp only [if_neg hne]
          exact List.getElem?_eq_getElem hlt)
        exact lt_irrefl _ this
      -- its lower bound is the last key, so there is no other
      obtain ⟨last, hget⟩ : ∃ last, keys[keys.length - 1]? = some last :=
        ⟨_, List.getElem?_eq_getElem (by omega : keys.length - 1 < keys.length)⟩
      have hge : ∀ k ∈ keys, last ≤ k := fun k hk => (hall k hk).1 last (by
        rw [← hw]
        have hne : keys.length ≠ 0 := by omega
        simp only [hlast, if_neg hne]
        exact hget)
      match keys, hrec, hbounds, hlen, hasc, hge, hlast, hget with
      | [], _, _, hlen, _, _, _, _ =>
          simp only [List.length_nil] at hlen
          omega
      | k₁ :: k₂ :: ks, _, _, _, hasc, hge, _, hget =>
          have hmem : last ∈ k₂ :: ks := by
            simp only [List.length_cons, Nat.add_sub_cancel, List.getElem?_cons_succ] at hget
            exact List.mem_of_getElem? hget
          have h₁ := (List.pairwise_cons.mp hasc).1 _ hmem
          exact absurd (hge k₁ (List.mem_cons_self ..)) (not_le.mpr h₁)
      | [k], hrec, hbounds, hlen, _, _, hlast, _ =>
          match children, hlen, hrec, hbounds with
          | [c₀, c₁], _, hrec, hbounds =>
              have hb : childBounds v.2.1 v.2.2 [k] [c₀, c₁] =
                  [(c₀, v.2.1, some k), (c₁, some k, v.2.2)] := rfl
              rw [hb] at hbounds
              match before, hlast, hbounds, hbefore with
              | [b], _, hbounds, hbefore =>
                  cases hbounds
                  exact ⟨k, c₀, c₁, hrec.shows, rfl, hbefore _ (List.mem_singleton_self _)⟩

/-- A page visited again below itself that still fits its bounds calls only its first child, on an
empty range; that child passed under the first visit. -/
theorem Calls.again {v w u u' : Visit} (hsorted : ∀ id n, store id = .ok n → n.Readable)
    (hv : Calls store v w) (hwu : Relation.ReflTransGen (Calls store) w u) (hid : u.1 = v.1)
    (hu : Calls store u u') : ∃ k c₀ c₁, store v.1 = .ok (.internal [k] [c₀, c₁]) ∧
      Passes store (c₀, v.2.1, some k) ∧ u'.1 = c₀ ∧ ∀ x, ¬ InRange u'.2.1 u'.2.2 x := by
  obtain ⟨n, hshow, -, hall⟩ := hu.fits
  rw [hid] at hshow
  obtain ⟨k, c₀, c₁, hnode, hw, hpass⟩ := hv.covers_keys hsorted hshow
    fun x hx => nested_of_reaches hwu (hall x hx)
  refine ⟨k, c₀, c₁, hnode, hpass, ?_⟩
  cases hu with
  | @child keys children before after hrec hbounds hbefore =>
      have hsame := hrec.shows
      rw [hid, hnode] at hsame
      cases hsame
      have hempty : ∀ x, ¬ InRange u.2.1 (some k) x := by
        intro x hx
        have hku := hrec.inRange k (List.mem_singleton_self k)
        have hxu : InRange u.2.1 u.2.2 x :=
          ⟨hx.1, fun b hb => lt_trans (hx.2 k rfl) (hku.2 b hb)⟩
        have hxw := nested_of_reaches hwu hxu
        rw [hw] at hxw
        exact absurd (hxw.1 k rfl) (not_le.mpr (hx.2 k rfl))
      have hb : childBounds u.2.1 u.2.2 [k] [c₀, c₁] =
          [(c₀, u.2.1, some k), (c₁, some k, u.2.2)] := rfl
      rw [hb] at hbounds
      match before, hbounds, hbefore with
      | [], hbounds, _ =>
          cases hbounds
          exact ⟨rfl, hempty⟩
      | b :: before, hbounds, hbefore =>
          obtain ⟨rfl, -⟩ := List.cons.inj hbounds
          obtain ⟨n, -, hne, hall⟩ := (hbefore _ (List.mem_cons_self ..)).fits
          obtain ⟨x, hx⟩ := List.exists_mem_of_ne_nil _ hne
          exact absurd (hall x hx) (hempty x)

/-! ## Paths of nested calls -/

/-- The calls made one inside the other. -/
abbrev CallPath (store : Store) (path : List Visit) : Prop := path.IsChain (Calls store)

/-- Along a path of calls the first reaches every later one. -/
theorem CallPath.reaches {v u : Visit} {before after : List Visit}
    (h : CallPath store (v :: (before ++ u :: after))) :
    ∃ w, Calls store v w ∧ Relation.ReflTransGen (Calls store) w u := by
  induction before generalizing v with
  | nil => exact ⟨u, (List.isChain_cons_cons.mp h).1, .refl⟩
  | cons w before ih =>
      obtain ⟨hvw, hrest⟩ := List.isChain_cons_cons.mp h
      obtain ⟨w', hw, hreach⟩ := ih hrest
      exact ⟨w, hvw, hreach.head hw⟩

/-- After a second visit to a page at most one more call is made, and it is to another page. -/
theorem CallPath.second_visit (hsorted : ∀ id n, store id = .ok n → n.Readable) {v u u' : Visit}
    {before after : List Visit} (h : CallPath store (v :: (before ++ u :: u' :: after)))
    (hid : u.1 = v.1) : after = [] ∧ u'.1 ≠ v.1 := by
  obtain ⟨w, hvw, hwu⟩ := h.reaches
  have hpath : CallPath store ((v :: before) ++ u :: u' :: after) := h
  have htail : CallPath store (u :: u' :: after) := List.IsChain.right_of_append hpath
  obtain ⟨huu, hrest⟩ := List.isChain_cons_cons.mp htail
  obtain ⟨k, c₀, c₁, hnode, hpass, hc₀, hempty⟩ := hvw.again hsorted hwu hid huu
  constructor
  · cases after with
    | nil => rfl
    | cons x after =>
        obtain ⟨n, -, hne, hall⟩ := (List.isChain_cons_cons.mp hrest).1.fits
        obtain ⟨x, hx⟩ := List.exists_mem_of_ne_nil _ hne
        exact absurd (hall x hx) (hempty x)
  · intro hsame
    -- the first child passed below `k`, so it does not hold the key `k`
    obtain ⟨n, hshow, -, hall⟩ := hpass.fits
    have hn : n = .internal [k] [c₀, c₁] := by
      have hshow' : store v.1 = .ok n := by
        rw [← hsame, hc₀]
        exact hshow
      rw [hnode] at hshow'
      cases hshow'
      rfl
    subst hn
    exact lt_irrefl k ((hall k (List.mem_singleton_self k)).2 k rfl)

/-- A page that is visited twice is visited again after some visit. -/
theorem exists_repeat {l : List Visit} {id : Nat} (h : 2 ≤ (l.map Prod.fst).count id) :
    ∃ before u after, l = before ++ u :: after ∧ u.1 = id ∧ id ∈ after.map Prod.fst := by
  induction l with
  | nil => simp at h
  | cons v l ih =>
      by_cases hv : v.1 = id
      · rw [List.map_cons, hv, List.count_cons_self] at h
        exact ⟨[], v, l, rfl, hv, List.count_pos_iff.mp (by omega)⟩
      · rw [List.map_cons, List.count_cons_of_ne hv] at h
        obtain ⟨before, u, after, rfl, hid, hmem⟩ := ih h
        exact ⟨v :: before, u, after, rfl, hid, hmem⟩

/-- No path of calls visits a page more than twice. -/
theorem CallPath.count_le_two (hsorted : ∀ id n, store id = .ok n → n.Readable)
    {path : List Visit} (h : CallPath store path) (id : Nat) :
    (path.map Prod.fst).count id ≤ 2 := by
  induction path with
  | nil => simp
  | cons v rest ih =>
      by_cases hv : v.1 = id
      · rw [List.map_cons, hv, List.count_cons_self]
        suffices hrest : ¬ 2 ≤ (rest.map Prod.fst).count id by omega
        intro hcount
        obtain ⟨before, u, after, rfl, huid, hmem⟩ := exists_repeat hcount
        cases after with
        | nil => cases hmem
        | cons u' after =>
            obtain ⟨rfl, hne⟩ := h.second_visit hsorted (huid.trans hv.symm)
            rw [List.map_singleton, List.mem_singleton] at hmem
            exact hne (hmem.symm.trans hv.symm)
      · rw [List.map_cons, List.count_cons_of_ne hv]
        exact ih h.tail

/-- But for its last two calls a path visits distinct pages. -/
theorem CallPath.nodup_init (hsorted : ∀ id n, store id = .ok n → n.Readable)
    {init : List Visit} {a b : Visit} (h : CallPath store (init ++ [a, b])) :
    (init.map Prod.fst).Nodup := by
  induction init with
  | nil => exact List.nodup_nil
  | cons v init ih =>
      rw [List.map_cons, List.nodup_cons]
      refine ⟨fun hmem => ?_, ih h.tail⟩
      obtain ⟨u, hu, huid⟩ := List.mem_map.mp hmem
      obtain ⟨before, after, rfl⟩ := List.append_of_mem hu
      rw [List.cons_append, List.append_assoc, List.cons_append] at h
      cases after with
      | nil => exact nomatch (h.second_visit hsorted huid).1
      | cons u' after =>
          have hnil := (h.second_visit hsorted huid).1
          exact absurd hnil (by simp)

/-- On a path of calls every visit but the last one finds a node that fits. -/
theorem CallPath.fits {init : List Visit} {a : Visit} (h : CallPath store (init ++ [a])) :
    ∀ v ∈ init, Fits store v := by
  induction init with
  | nil => exact fun _ hv => nomatch hv
  | cons v init ih =>
      intro w hw
      rcases List.mem_cons.mp hw with rfl | hw
      · cases init with
        | nil => exact (List.isChain_cons_cons.mp h).1.fits
        | cons u init => exact (List.isChain_cons_cons.mp h).1.fits
      · exact ih h.tail w hw

/-- Calls nest no deeper than the file has pages. -/
theorem CallPath.length_le (hsorted : ∀ id n, store id = .ok n → n.Readable) {pageCount : Nat}
    (hrange : ∀ id n, store id = .ok n → firstDataPage ≤ id ∧ id < pageCount)
    (hcount : firstDataPage ≤ pageCount) {path : List Visit} (h : CallPath store path) :
    path.length ≤ pageCount := by
  have hfirst : firstDataPage = 2 := rfl
  by_cases hlen : path.length ≤ 1
  · omega
  · obtain ⟨init, a, b, rfl⟩ : ∃ init a b, path = init ++ [a, b] := by
      refine ⟨path.take (path.length - 2), path[path.length - 2], path[path.length - 1], ?_⟩
      conv_lhs => rw [← List.take_append_drop (path.length - 2) path]
      congr 1
      rw [List.drop_eq_getElem_cons (by omega), List.drop_eq_getElem_cons (by omega),
        List.drop_eq_nil_of_le (by omega)]
      simp only [List.cons.injEq, and_true, true_and]
      congr 1
      omega
    have hnodup := h.nodup_init hsorted
    have hfits : ∀ v ∈ init, Fits store v := fun v hv => by
      have h' : CallPath store ((init ++ [a]) ++ [b]) := by
        rw [List.append_assoc]
        exact h
      exact h'.fits v (List.mem_append_left _ hv)
    have hsub : init.map Prod.fst ⊆ List.range' firstDataPage (pageCount - firstDataPage) := by
      intro id hid
      obtain ⟨v, hv, rfl⟩ := List.mem_map.mp hid
      obtain ⟨n, hshow, -⟩ := hfits v hv
      have := hrange _ _ hshow
      exact List.mem_range'_1.mpr (by omega)
    have hle := (hnodup.subperm hsub).length_le
    rw [List.length_map, List.length_range'] at hle
    rw [List.length_append, List.length_cons, List.length_singleton]
    omega

/-! ## Running into the bound -/

/-- If the check of some children runs into the bound, it does so in one of them, those before
it having passed. -/
theorem checkStep_outOfFuel {bs : List Visit} {acc : Option Nat × Nat × Nat}
    (h : bs.foldlM (checkStep store fuel) acc = .error .outOfFuel) :
    ∃ before w after, bs = before ++ w :: after ∧ (∀ b ∈ before, Passes store b) ∧
      checkRec store fuel w.1 w.2.1 w.2.2 false = .error .outOfFuel := by
  induction bs generalizing acc with
  | nil => cases h
  | cons b bs ih =>
      rw [List.foldlM_cons] at h
      rcases Result.bind_eq_error.mp h with hb | ⟨acc', hb, hrest⟩
      · refine ⟨[], b, bs, rfl, (fun _ hb => nomatch hb), ?_⟩
        rcases Result.bind_eq_error.mp hb with hrec | ⟨r, -, hjoin⟩
        · exact hrec
        · unfold joinDepth at hjoin
          split at hjoin
          · cases hjoin
          · split at hjoin <;> cases hjoin
      · obtain ⟨before, w, after, rfl, hpass, hrec⟩ := ih hrest
        refine ⟨b :: before, w, after, rfl, fun b' hb' => ?_, hrec⟩
        rcases List.mem_cons.mp hb' with rfl | hb'
        · obtain ⟨r, hrun, -⟩ := Result.bind_eq_ok.mp hb
          exact ⟨fuel, r, hrun⟩
        · exact hpass b' hb'

/-- A check that runs into the bound has made as many nested calls. -/
theorem exists_path_of_outOfFuel (hstore : ∀ id, store id ≠ .error .outOfFuel)
    (h : checkRec store fuel id lo hi isRoot = .error .outOfFuel) :
    ∃ path, CallPath store ((id, lo, hi) :: path) ∧ path.length = fuel := by
  induction fuel generalizing id lo hi isRoot with
  | zero => exact ⟨[], List.isChain_singleton _, rfl⟩
  | succ fuel ih =>
      cases hshow : store id with
      | error e =>
          rw [checkRec_error hshow] at h
          cases h
          exact absurd hshow (hstore id)
      | ok n =>
          cases n with
          | leaf keys vals =>
              rcases checkRec_leaf fuel lo hi isRoot hshow with ⟨-, -, -, hok⟩ | ⟨c, hfail⟩
              · rw [hok] at h
                cases h
              · rw [hfail] at h
                cases h
          | internal keys children =>
              rcases checkRec_internal fuel lo hi isRoot hshow with
                ⟨hrec, hrun⟩ | ⟨c, hfail⟩
              · rw [hrun] at h
                rcases Result.bind_eq_error.mp h with hkids | ⟨r, -, hr⟩
                · obtain ⟨before, w, after, hbs, hpass, hw⟩ := checkStep_outOfFuel hkids
                  obtain ⟨path, hpath, hlen⟩ := ih hw
                  exact ⟨w :: path, List.isChain_cons_cons.mpr ⟨.child hrec hbs hpass, hpath⟩,
                    by rw [List.length_cons, hlen]⟩
                · cases hr
              · rw [hfail] at h
                cases h

end Calls

/-! ## Termination -/

theorem nodeAt_ne_outOfFuel (p : Pager Node) (id : Nat) : nodeAt p id ≠ .error .outOfFuel := by
  unfold nodeAt
  cases p.shown id with
  | error e => exact fun h => nomatch h
  | ok f =>
      simp only
      cases f.body with
      | data n =>
          simp only
          cases n.decode id <;> exact fun h => nomatch h
      | metaPage image => exact fun h => nomatch h
      | freelist next ids => exact fun h => nomatch h

/-- **The check terminates on any pages.** Whatever the pages show, on no path of nested calls
from the root is a page visited more than twice, calls nest no deeper than the file has pages,
and the check returns or fails by itself, the bound on its depth never being reached. -/
theorem validate_terminates {p : Pager Node} (hc : p.Coherent)
    (hcount : firstDataPage ≤ p.metadata.pageCount) (root : Nat) :
    (∀ path, CallPath (nodeAt p) ((root, none, none) :: path) →
      (∀ id, (((root, none, none) :: path).map Prod.fst).count id ≤ 2) ∧
        path.length < p.metadata.pageCount) ∧
    ((∃ stats p', validate root p = .ok stats p') ∨
      ∃ e p', validate root p = .error e p' ∧ e ≠ .outOfFuel) := by
  have hsorted : ∀ id n, nodeAt p id = .ok n → n.Readable := fun id n h => (nodeAt_eq_ok h).2.2
  have hrange : ∀ id n, nodeAt p id = .ok n → firstDataPage ≤ id ∧ id < p.metadata.pageCount :=
    fun id n h => ⟨(nodeAt_eq_ok h).1, (nodeAt_eq_ok h).2.1⟩
  have hlength : ∀ path, CallPath (nodeAt p) ((root, none, none) :: path) →
      path.length < p.metadata.pageCount := fun path hpath => by
    have := hpath.length_le hsorted hrange hcount
    rwa [List.length_cons] at this
  refine ⟨fun path hpath => ⟨hpath.count_le_two hsorted, hlength path hpath⟩, ?_⟩
  have hrun := validateRec_reports hc p.metadata.pageCount root none none true
  cases hcheck : checkRec (nodeAt p) p.metadata.pageCount root none none true with
  | ok r =>
      rw [hcheck] at hrun
      obtain ⟨p', hok, -⟩ := hrun.run_ok
      refine .inl ⟨{ height := r.1, entries := r.2.1, nodes := r.2.2 }, p', ?_⟩
      unfold validate
      rw [bind_of_ok (fuel_eq p), bind_of_ok hok]
      rfl
  | error e =>
      rw [hcheck] at hrun
      obtain ⟨p', hfail, -⟩ := hrun.run_error
      refine .inr ⟨e, p', ?_, ?_⟩
      · unfold validate
        rw [bind_of_ok (fuel_eq p), bind_of_error hfail]
      · rintro rfl
        obtain ⟨path, hpath, hlen⟩ := exists_path_of_outOfFuel (nodeAt_ne_outOfFuel p) hcheck
        have := hlength path hpath
        omega

/-- Two pages, the first of which lists itself as its second child. -/
def selfListing : Pager Node := { Pager.create 0 with
  backend := Backend.ofImage {
    len := 4
    cells := fun id =>
      if id = 2 then some { id := 2, body := .data (.internal [[5]] [3, 2]) }
      else if id = 3 then some { id := 3, body := .data (.leaf [[1]] [[7]]) }
      else none }
  metadata := { Meta.initial with pageCount := 4 } }

/-- The second visit to page 2 fits its bounds and fails in its first child. -/
theorem validate_terminates_selfListing :
    (∃ stats p', validate 2 selfListing = .ok stats p') ∨
      ∃ e p', validate 2 selfListing = .error e p' ∧ e ≠ .outOfFuel :=
  (validate_terminates (p := selfListing) ⟨List.nodup_nil, (fun _ _ h => nomatch h),
    (fun _ _ h => nomatch h)⟩ (by decide) 2).2

example : ∃ p', validate 2 selfListing = .error (.corruption (.separatorMismatch 3)) p' := ⟨_, rfl⟩

end Edb.BTree
