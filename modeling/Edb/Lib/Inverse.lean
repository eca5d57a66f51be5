import Edb.Lib.OrdMap
import Mathlib.Data.List.Induction
import Mathlib.Logic.Function.Basic

/-!
# Maps kept as an inverse

An index over some rows is the inverse of what the rows contribute to it: it binds a key to a row
exactly if that is the row's key. Keeping it up by moves is delicate, since a move takes away
whatever is bound to the old key and replaces whatever is bound to the new one, be it of the row
that moves or not. `slide_inverts_iff` says when one move keeps the map an inverse;
`slides_inverts` gives conditions under which a list of moves does.
-/

namespace Edb.Lib.Inverse

section Maps

variable {K V : Type} [LinearOrder K]

/-- The map binds a key to a row exactly if the row contributes the key. -/
structure Inverts (tree : List (K × V)) (f : V → Option K) : Prop where
  sorted : OrdMap.Sorted tree
  find_iff : ∀ k v, OrdMap.find k tree = some v ↔ f v = some k

/-- Take away the binding of a key, if there is a key. -/
def dropKey (tree : List (K × V)) (key : Option K) : List (K × V) :=
  key.elim tree (fun k => OrdMap.erase k tree)

/-- Bind a key to a row, if there is a key. -/
def putKey (v : V) (tree : List (K × V)) (key : Option K) : List (K × V) :=
  key.elim tree (fun k => OrdMap.insert k v tree)

/-- Move a row from an old key to a new one; a row whose key stays is not touched. -/
def slide (v : V) (old new : Option K) (tree : List (K × V)) : List (K × V) :=
  if old = new then tree else putKey v (dropKey tree old) new

theorem find_dropKey (tree : List (K × V)) (key : Option K) (k : K) :
    OrdMap.find k (dropKey tree key) = if key = some k then none else OrdMap.find k tree := by
  cases key with
  | none => rfl
  | some k' => simp [dropKey, OrdMap.find_erase]

theorem find_putKey (v : V) (tree : List (K × V)) (key : Option K) (k : K) :
    OrdMap.find k (putKey v tree key) = if key = some k then some v else OrdMap.find k tree := by
  cases key with
  | none => rfl
  | some k' => simp [putKey, OrdMap.find_insert]

theorem find_slide {old new : Option K} (hne : old ≠ new) (v : V) (tree : List (K × V)) (k : K) :
    OrdMap.find k (slide v old new tree) =
      if new = some k then some v else if old = some k then none else OrdMap.find k tree := by
  rw [slide, if_neg hne, find_putKey, find_dropKey]

theorem slide_sorted {tree : List (K × V)} (h : OrdMap.Sorted tree) (v : V) (old new : Option K) :
    OrdMap.Sorted (slide v old new tree) := by
  have hdrop : OrdMap.Sorted (dropKey tree old) := by
    cases old with
    | none => exact h
    | some k => exact h.erase
  unfold slide
  split
  · exact h
  · cases new with
    | none => exact hdrop
    | some k => exact hdrop.insert

/-- A row that had no key before. -/
theorem slide_none (v : V) (new : Option K) (tree : List (K × V)) :
    slide v none new tree = putKey v tree new := by
  unfold slide
  split
  · next h => rw [← h]; rfl
  · rfl

/-- A row that has no key after. -/
theorem slide_to_none (v : V) (old : Option K) (tree : List (K × V)) :
    slide v old none tree = dropKey tree old := by
  unfold slide
  split
  · next h => rw [h]; rfl
  · rfl

namespace Inverts

variable {tree : List (K × V)} {f : V → Option K}

/-- No two rows contribute one key. -/
theorem inj (h : Inverts tree f) {u v : V} {k : K} (hu : f u = some k) (hv : f v = some k) :
    u = v :=
  Option.some_inj.1 (((h.find_iff k u).2 hu).symm.trans ((h.find_iff k v).2 hv))

variable [DecidableEq V]

/-- **One move.** A row that moves leaves the map an inverse if and only if no other row has its
old or its new key and its present key, if it has one, is one of the two. -/
theorem slide_inverts_iff (h : Inverts tree f) (v : V) {old new : Option K} (hne : old ≠ new) :
    Inverts (slide v old new tree) (Function.update f v new) ↔
      (∀ k, old = some k ∨ new = some k → ∀ u, f u = some k → u = v) ∧
        ∀ k, f v = some k → old = some k ∨ new = some k := by
  constructor
  · intro hi
    constructor
    · intro k hk u hu
      -- another owner of one of the two keys would lose it, or have it overwritten
      by_contra huv
      have hbound := (hi.find_iff k u).2 (by rw [Function.update_of_ne huv, hu])
      rw [find_slide hne] at hbound
      split at hbound
      · exact huv (Option.some_inj.1 hbound).symm
      · next hnew =>
        rw [if_pos (hk.resolve_right hnew)] at hbound
        cases hbound
    · intro k hk
      -- a key the value had besides would be left in the tree
      by_contra hnot
      obtain ⟨hold, hnew⟩ := not_or.1 hnot
      have hbound : OrdMap.find k (slide v old new tree) = some v := by
        rw [find_slide hne, if_neg hnew, if_neg hold]
        exact (h.find_iff k v).2 hk
      have := (hi.find_iff k v).1 hbound
      rw [Function.update_self] at this
      exact hnew this
  · rintro ⟨hothers, hown⟩
    refine ⟨slide_sorted h.sorted v old new, fun k u => ?_⟩
    rw [find_slide hne]
    by_cases huv : u = v
    -- of the value itself the tree has the new key alone
    · subst huv
      rw [Function.update_self]
      split
      · next hnew => exact iff_of_true rfl hnew
      · next hnew =>
        refine iff_of_false ?_ hnew
        split
        · exact (Option.some_ne_none u).symm
        · next hold => exact fun hk => (hown k ((h.find_iff k u).1 hk)).elim hold hnew
    · rw [Function.update_of_ne huv]
      split
      · next hnew =>
        exact iff_of_false (fun hv => huv (Option.some_inj.1 hv).symm)
          (fun hk => huv (hothers k (.inr hnew) u hk))
      · split
        · next hold =>
          exact iff_of_false (Option.some_ne_none u).symm
            (fun hk => huv (hothers k (.inl hold) u hk))
        · exact h.find_iff k u

/-- A row that is where it belongs stays there. -/
theorem slide_same (h : Inverts tree f) {v : V} {key : Option K} (hv : f v = key) :
    Inverts (slide v key key tree) (Function.update f v key) := by
  rw [slide, if_pos rfl, ← hv, Function.update_eq_self]
  exact h

end Inverts

end Maps

/-! ## Lists of moves -/

section Moves

variable {K V : Type}

/-- One move of a row, from the key the mover takes it to have to another. -/
structure Move (K V : Type) where
  row : V
  old : Option K
  new : Option K

namespace Move

/-- The row arrives at a key. -/
def Takes (m : Move K V) (k : K) : Prop := m.new = some k ∧ m.old ≠ some k

/-- The row goes away from a key. -/
def Leaves (m : Move K V) (k : K) : Prop := m.old = some k ∧ m.new ≠ some k

variable [DecidableEq K]

instance (m m' : Move K V) : Decidable (∀ k, m.Takes k → ¬ m'.Leaves k) :=
  decidable_of_iff (∀ k ∈ m.new, m.old ≠ some k → m'.old = some k → m'.new = some k) (by
    constructor
    · intro h k hk hl
      exact hl.2 (h k hk.1 hk.2 hl.1)
    · intro h k hnew hold hold'
      by_contra hnew'
      exact h k ⟨hnew, hold⟩ ⟨hold', hnew'⟩)

instance (m m' : Move K V) : Decidable (∀ k, m.Takes k → ¬ m'.Takes k) :=
  decidable_of_iff (∀ k ∈ m.new, m.old ≠ some k → m'.new = some k → m'.old = some k) (by
    constructor
    · intro h k hk hk'
      exact hk'.2 (h k hk.1 hk.2 hk'.1)
    · intro h k hnew hold hnew'
      by_contra hold'
      exact h k ⟨hnew, hold⟩ ⟨hnew', hold'⟩)

end Move

/-- The map after some moves. -/
def slides [LinearOrder K] (ms : List (Move K V)) (tree : List (K × V)) : List (K × V) :=
  ms.foldl (fun tree m => slide m.row m.old m.new tree) tree

@[simp] theorem slides_append [LinearOrder K] (ms ms' : List (Move K V)) (tree : List (K × V)) :
    slides (ms ++ ms') tree = slides ms' (slides ms tree) := List.foldl_append

theorem slides_sorted [LinearOrder K] {tree : List (K × V)} (h : OrdMap.Sorted tree)
    (ms : List (Move K V)) : OrdMap.Sorted (slides ms tree) := by
  induction ms generalizing tree with
  | nil => exact h
  | cons m ms ih => exact ih (slide_sorted h m.row m.old m.new)

theorem pairwise_middle {R : Move K V → Move K V → Prop} {before rest : List (Move K V)}
    {m : Move K V} (h : (before ++ m :: rest).Pairwise R) :
    (∀ m' ∈ before, R m' m) ∧ ∀ m' ∈ rest, R m m' := by
  rw [List.pairwise_append, List.pairwise_cons] at h
  exact ⟨fun m' hm' => h.2.2 m' hm' m (List.mem_cons_self ..), h.2.1.1⟩

variable [DecidableEq V]

/-- The rows' keys after some moves. -/
def moveAll (ms : List (Move K V)) (f : V → Option K) : V → Option K :=
  ms.foldl (fun f m => Function.update f m.row m.new) f

@[simp] theorem moveAll_append (ms ms' : List (Move K V)) (f : V → Option K) :
    moveAll (ms ++ ms') f = moveAll ms' (moveAll ms f) := List.foldl_append

/-- A row that moved is where its last move took it. -/
theorem moveAll_cases (ms : List (Move K V)) (f : V → Option K) (v : V) :
    ((∀ m ∈ ms, m.row ≠ v) ∧ moveAll ms f v = f v) ∨
      ∃ before m after, ms = before ++ m :: after ∧ m.row = v ∧ (∀ m' ∈ after, m'.row ≠ v) ∧
        moveAll ms f v = m.new := by
  induction ms using List.reverseRecOn with
  | nil => exact .inl ⟨fun m hm => absurd hm List.not_mem_nil, rfl⟩
  | append_singleton ms last ih =>
    rw [moveAll_append]
    have hstep : moveAll [last] (moveAll ms f) v =
        Function.update (moveAll ms f) last.row last.new v := rfl
    rw [hstep]
    by_cases hlast : last.row = v
    · exact .inr ⟨ms, last, [], rfl, hlast, fun m hm => absurd hm List.not_mem_nil,
        by rw [hlast, Function.update_self]⟩
    · have hkept : Function.update (moveAll ms f) last.row last.new v = moveAll ms f v :=
        Function.update_of_ne (Ne.symm hlast) _ _
      rcases ih with ⟨hnone, heq⟩ | ⟨before, m, after, rfl, hrow, hafter, heq⟩
      · refine .inl ⟨?_, hkept.trans heq⟩
        intro m hm
        rcases List.mem_append.1 hm with hm | hm
        · exact hnone m hm
        · rw [List.mem_singleton.1 hm]
          exact hlast
      · refine .inr ⟨before, m, after ++ [last], by simp, hrow, ?_, hkept.trans heq⟩
        intro m' hm'
        rcases List.mem_append.1 hm' with hm' | hm'
        · exact hafter m' hm'
        · rw [List.mem_singleton.1 hm']
          exact hlast

/-- What a list of moves has to be like. Every move starts from the key the row had before the
first of them. A key that is taken was free, or some row leaves it. -/
structure Orderly (f : V → Option K) (ms : List (Move K V)) : Prop where
  start : ∀ m ∈ ms, m.old = f m.row
  free : ∀ m ∈ ms, ∀ k, m.Takes k → ∀ u, f u = some k → ∃ m' ∈ ms, m'.Leaves k
  /-- A key is left before another row takes it. -/
  order : ms.Pairwise (fun m m' => ∀ k, m.Takes k → ¬ m'.Leaves k)
  /-- No two rows take one key. -/
  once : ms.Pairwise (fun m m' => m.row ≠ m'.row → ∀ k, m.Takes k → ¬ m'.Takes k)
  /-- A row that moves again ends where it was taken before, was not taken anywhere before, or had
  no key left and gets a new one. -/
  again : ms.Pairwise (fun m m' => m.row = m'.row →
    m'.new = m.new ∨ m.new = m.old ∨ (m.new = none ∧ m'.new ≠ m'.old))

section Orderly

variable [LinearOrder K] {tree : List (K × V)} {f : V → Option K} {ms before rest : List (Move K V)}
  {m : Move K V}

/-- Who has a key in the middle of the moves: the row that had it from the start, or one that took
it. -/
theorem holder_cases (h : Orderly f (before ++ rest)) {u : V} {k : K}
    (hu : moveAll before f u = some k) :
    f u = some k ∨ ∃ m' ∈ before, m'.row = u ∧ m'.Takes k := by
  rcases moveAll_cases before f u with ⟨-, heq⟩ | ⟨b, m', a, rfl, hrow, -, heq⟩
  · exact .inl (heq.symm.trans hu)
  · have hnew : m'.new = some k := heq.symm.trans hu
    have hmem : m' ∈ b ++ m' :: a := by simp
    by_cases hold : m'.old = some k
    · refine .inl ?_
      rw [← hold, h.start m' (List.mem_append_left _ hmem), hrow]
    · exact .inr ⟨m', hmem, hrow, hnew, hold⟩

/-- Nobody else has the key a row is taken to move away from. -/
theorem left_alone (hi : Inverts tree f) (h : Orderly f (before ++ m :: rest)) {k : K}
    (hk : m.Leaves k) {u : V} (hu : moveAll before f u = some k) : u = m.row := by
  rcases holder_cases h hu with hu | ⟨m', hm', -, htakes⟩
  · refine hi.inj hu ?_
    rw [← h.start m (by simp), hk.1]
  · exact absurd hk ((pairwise_middle h.order).1 m' hm' k htakes)

/-- Nobody else has the key a row takes. -/
theorem taken_free (hi : Inverts tree f) (h : Orderly f (before ++ m :: rest)) {k : K}
    (hk : m.Takes k) {u : V} (hu : moveAll before f u = some k) : u = m.row := by
  by_contra hne
  rcases holder_cases h hu with hfirst | ⟨m', hm', hrow, htakes⟩
  · -- the key was `u`'s from the start, so `u` is the row that leaves it, before or after
    obtain ⟨m', hm', hleaves⟩ := h.free m (by simp) k hk u hfirst
    have hrow : m'.row = u := hi.inj (by rw [← h.start m' hm', hleaves.1]) hfirst
    rcases List.mem_append.1 hm' with hm' | hm'
    · rcases moveAll_cases before f u with ⟨hnone, -⟩ | ⟨b, last, a, rfl, hlast, hafter, heq⟩
      · exact hnone m' hm' hrow
      · have hnew : last.new = some k := heq.symm.trans hu
        have hold : last.old = some k := by
          rw [h.start last (by simp), hlast, hfirst]
        have hagain := h.again
        rw [List.append_assoc, List.cons_append] at hagain
        rcases List.mem_append.1 hm' with hm' | hm'
        · rcases (pairwise_middle hagain).1 m' hm' (hrow.trans hlast.symm) with hsame | hsame | hno
          · exact hleaves.2 (hsame.symm.trans hnew)
          · exact hleaves.2 (hsame.trans hleaves.1)
          · exact hno.2 (hnew.trans hold.symm)
        · rcases List.mem_cons.1 hm' with rfl | hm'
          · exact hleaves.2 hnew
          · exact hafter m' hm' hrow
    · rcases List.mem_cons.1 hm' with rfl | hm'
      · exact hk.2 hleaves.1
      · exact (pairwise_middle h.order).2 m' hm' k hk hleaves
  · exact (pairwise_middle h.once).1 m' hm' (fun heq => hne (hrow.symm.trans heq)) k htakes hk

/-- The step: one more of the moves keeps the map an inverse. -/
theorem slide_next (hi : Inverts tree f) (h : Orderly f (before ++ m :: rest))
    (hb : Inverts (slides before tree) (moveAll before f)) :
    Inverts (slides (before ++ [m]) tree) (moveAll (before ++ [m]) f) := by
  rw [slides_append, moveAll_append]
  show Inverts (slide m.row m.old m.new _) (Function.update _ m.row m.new)
  have hstart : f m.row = m.old := (h.start m (by simp)).symm
  have hpresent : moveAll before f m.row = m.old ∨ moveAll before f m.row = m.new ∨
      (moveAll before f m.row = none ∧ m.new ≠ m.old) := by
    rcases moveAll_cases before f m.row with ⟨-, heq⟩ | ⟨b, m', a, rfl, hrow, -, heq⟩
    · exact .inl (heq.trans hstart)
    · rw [heq]
      rcases (pairwise_middle h.again).1 m' (by simp) hrow with hsame | hsame | hnone
      · exact .inr (.inl hsame.symm)
      · refine .inl (hsame.trans ?_)
        rw [h.start m' (by simp), hrow, hstart]
      · exact .inr (.inr hnone)
  by_cases hmoves : m.old = m.new
  · rw [hmoves]
    refine hb.slide_same ?_
    rw [hmoves] at hpresent
    rcases hpresent with heq | heq | ⟨-, hne⟩
    · exact heq
    · exact heq
    · exact absurd rfl hne
  · refine (hb.slide_inverts_iff m.row hmoves).2 ⟨?_, ?_⟩
    · rintro k (hold | hnew) u hu
      · exact left_alone hi h ⟨hold, fun hnew => hmoves (hold.trans hnew.symm)⟩ hu
      · exact taken_free hi h ⟨hnew, fun hold => hmoves (hold.trans hnew.symm)⟩ hu
    · intro k hk
      rw [hk] at hpresent
      rcases hpresent with heq | heq | ⟨hnone, -⟩
      · exact .inl heq.symm
      · exact .inr heq.symm
      · cases hnone

/-- **Lists of moves.** Orderly moves keep the map an inverse. -/
theorem slides_inverts (hi : Inverts tree f) (h : Orderly f ms) :
    Inverts (slides ms tree) (moveAll ms f) := by
  have hprefix : ∀ before rest, before ++ rest = ms →
      Inverts (slides before tree) (moveAll before f) := by
    intro before
    induction before using List.reverseRecOn with
    | nil =>
      intro _ _
      exact hi
    | append_singleton before m ih =>
      intro rest heq
      rw [List.append_assoc] at heq
      have hnext : Orderly f (before ++ m :: rest) := by
        rw [← List.singleton_append, heq]
        exact h
      exact slide_next hi hnext (ih _ heq)
  exact hprefix ms [] (List.append_nil ms)

end Orderly

end Moves

end Edb.Lib.Inverse
