import Mathlib.Data.List.Forall2
import Edb.Query.Stream

/-!
# LIKE against its meaning

A pattern means a split of the text: `%` takes a run of characters, `_` takes one, any other
character takes itself (`Matches`). The matcher walks text and pattern with one place to go back
to, the last `%` it passed, and tests for equal characters before it tests for `%`: a `%` of the
pattern that meets a `%` of the text is consumed as an ordinary character.

* **What the matcher decides** (`likeLoop_iff`): it searches the splits in which such a `%` takes
  that one character, all of them, and no others.
* **When it is right** (`likeMatch_meets`): exactly when a text that matches also has a split of
  that kind.
-/

namespace Edb.Query

/-! ## Splits -/

/-- The text is split along the pattern, symbol by symbol; `takes run rest` says which runs a `%`
may take in front of `rest`. -/
inductive Splits (takes : List Char → List Char → Prop) : List Char → List Char → Prop where
  | nil : Splits takes [] []
  | any {run p t : List Char} (h : takes run t) (ht : Splits takes p t) :
      Splits takes ('%' :: p) (run ++ t)
  | one {c : Char} {p t : List Char} (ht : Splits takes p t) : Splits takes ('_' :: p) (c :: t)
  | char {c : Char} {p t : List Char} (hany : c ≠ '%') (hone : c ≠ '_') (ht : Splits takes p t) :
      Splits takes (c :: p) (c :: t)

/-- The declarative meaning of a pattern: a `%` takes any run. -/
def Matches (text pattern : String) : Prop :=
  Splits (fun _ _ => True) pattern.toList text.toList

/-- A `%` that stands at a `%` of the text takes that character and no other run. -/
def TakesPercent (run rest : List Char) : Prop := (run ++ rest).head? = some '%' → run = ['%']

/-- A pattern character that is consumed with the text character it meets. -/
def Faces (a c : Char) : Prop := a = '_' ∨ a = c

theorem Splits.mono {takes takes' : List Char → List Char → Prop} {p t : List Char}
    (hmono : ∀ run rest, takes run rest → takes' run rest) (h : Splits takes p t) :
    Splits takes' p t := by
  induction h with
  | nil => exact .nil
  | any h _ ih => exact .any (hmono _ _ h) ih
  | one _ ih => exact .one ih
  | char hany hone _ ih => exact .char hany hone ih

/-- Whatever the first symbol is, it takes a run and leaves a split of the rest. -/
theorem Splits.tail {takes : List Char → List Char → Prop} {a : Char} {p t : List Char}
    (h : Splits takes (a :: p) t) : ∃ run rest, t = run ++ rest ∧ Splits takes p rest := by
  cases h with
  | @any run _ rest _ ht => exact ⟨run, rest, rfl, ht⟩
  | @one c _ rest ht => exact ⟨[c], rest, rfl, ht⟩
  | @char _ _ rest _ _ ht => exact ⟨[a], rest, rfl, ht⟩

theorem splits_nil_iff {takes : List Char → List Char → Prop} {t : List Char} :
    Splits takes [] t ↔ t = [] := by
  constructor
  · intro h
    cases h
    rfl
  · rintro rfl
    exact .nil

/-- Nothing but `%` is left to match the end of the text. -/
theorem splits_end_iff {p : List Char} :
    Splits TakesPercent p [] ↔ p.all (· == '%') = true := by
  constructor
  · intro h
    generalize ht : ([] : List Char) = t at h
    induction h with
    | nil => rfl
    | any _ _ ih => simp [ih (List.append_eq_nil_iff.1 ht.symm).2.symm]
    | one _ _ => cases ht
    | char _ _ _ _ => cases ht
  · intro h
    induction p with
    | nil => exact .nil
    | cons a p ih =>
      obtain ⟨ha, hp⟩ := Bool.and_eq_true_iff.1 h
      obtain rfl := eq_of_beq ha
      have hrun : TakesPercent [] [] := fun hhead => by cases hhead
      exact Splits.any hrun (ih hp)

/-- A character that faces the text is consumed with it, a `%` among them. -/
theorem splits_faced {a c : Char} {p t : List Char} (h : Faces a c) :
    Splits TakesPercent (a :: p) (c :: t) ↔ Splits TakesPercent p t := by
  constructor
  · intro hs
    generalize hu : c :: t = u at hs
    cases hs with
    | @any run _ rest hrun ht =>
      have hc : c = '%' := (h.resolve_left (by decide)).symm
      have hhead : (run ++ rest).head? = some '%' := by rw [← hu, hc]; rfl
      obtain rfl := hrun hhead
      obtain ⟨-, rfl⟩ := List.cons.inj hu
      exact ht
    | one ht =>
      obtain ⟨-, rfl⟩ := List.cons.inj hu
      exact ht
    | char _ _ ht =>
      obtain ⟨-, rfl⟩ := List.cons.inj hu
      exact ht
  · intro ht
    rcases h with rfl | rfl
    · exact .one ht
    · by_cases hany : a = '%'
      · subst hany
        have hrun : TakesPercent ['%'] t := fun _ => rfl
        exact Splits.any hrun ht
      · by_cases hone : a = '_'
        · subst hone
          exact .one ht
        · exact .char hany hone ht

/-- A `%` that meets another character may take any run. -/
theorem splits_any {c : Char} {p t : List Char} (h : c ≠ '%') :
    Splits TakesPercent ('%' :: p) (c :: t) ↔
      ∃ run rest, c :: t = run ++ rest ∧ Splits TakesPercent p rest := by
  constructor
  · exact Splits.tail
  · rintro ⟨run, rest, hsplit, ht⟩
    rw [hsplit]
    refine .any (fun hhead => ?_) ht
    rw [← hsplit] at hhead
    exact absurd (Option.some.inj hhead) h

/-- A character that neither faces the text nor is a `%` cannot be matched. -/
theorem not_splits {a c : Char} {p t : List Char} (h : ¬ Faces a c) (hany : a ≠ '%') :
    ¬ Splits TakesPercent (a :: p) (c :: t) := by
  intro hs
  generalize hu : c :: t = u at hs
  cases hs with
  | any _ _ => exact hany rfl
  | one _ => exact h (.inl rfl)
  | char _ _ _ => exact h (.inr (List.cons.inj hu).1.symm)

/-- Where a split starts further on in the text, it is further on behind a segment that faces the
text: the segment takes a character for each of its own, the split may take no fewer. -/
theorem Splits.after_segment {seg piece rest lead u q : List Char}
    (hfaces : List.Forall₂ Faces seg piece) (hlead : piece ++ rest = lead ++ u)
    (h : Splits TakesPercent (seg ++ q) u) :
    ∃ lead' u', rest = lead' ++ u' ∧ Splits TakesPercent q u' := by
  induction hfaces generalizing lead u with
  | nil => exact ⟨lead, u, hlead, h⟩
  | @cons a c seg piece hface hfaces ih =>
    cases lead with
    | nil =>
      rw [List.nil_append, List.cons_append] at hlead
      subst hlead
      have hnone : piece ++ rest = [] ++ (piece ++ rest) := rfl
      exact ih hnone ((splits_faced hface).1 h)
    | cons d lead =>
      obtain ⟨-, hlead⟩ := List.cons.inj hlead
      obtain ⟨run, u', rfl, hu'⟩ := Splits.tail h
      have hlead : piece ++ rest = (lead ++ run) ++ u' := by
        rw [List.append_assoc]
        exact hlead
      exact ih hlead hu'

/-! ## The matcher -/

/-- The state between two rounds: what stands between the last `%` and here faces the text. -/
structure LikeInv (t p : List Char) (s : LikeState) : Prop where
  i_le : s.i ≤ t.length
  j_le : s.j ≤ p.length
  resume_le : s.resume ≤ s.i
  star_lt : ∀ st, s.star = some st → st < p.length
  segment : ∀ st, s.star = some st → ∃ seg piece, List.Forall₂ Faces seg piece
    ∧ p.drop (st + 1) = seg ++ p.drop s.j ∧ t.drop s.resume = piece ++ t.drop s.i

/-- What the matcher can still find: a split from here, or one from further on behind the last
`%`. -/
def Open (t p : List Char) (s : LikeState) : Prop :=
  Splits TakesPercent (p.drop s.j) (t.drop s.i) ∨
    ∃ st, s.star = some st ∧ ∃ lead rest, lead ≠ [] ∧ t.drop s.resume = lead ++ rest
      ∧ Splits TakesPercent (p.drop (st + 1)) rest

/-- How many rounds a state is away from the end: going back moves `resume` on, and until then
`j` moves on. -/
def likeWork (t p : List Char) (s : LikeState) : Nat :=
  (t.length - s.resume) * (p.length + 1) + (p.length - s.j)

/-- Everything further on behind the last `%` is also further on from here. -/
theorem LikeInv.from_here {t p : List Char} {s : LikeState} (hs : LikeInv t p s) {st : Nat}
    (hstar : s.star = some st) {lead rest : List Char} (hlead : t.drop s.resume = lead ++ rest)
    (h : Splits TakesPercent (p.drop (st + 1)) rest) :
    ∃ lead' rest', t.drop s.i = lead' ++ rest' ∧ Splits TakesPercent (p.drop s.j) rest' := by
  obtain ⟨seg, piece, hfaces, hp, ht⟩ := hs.segment st hstar
  rw [hp] at h
  rw [ht] at hlead
  exact h.after_segment hfaces hlead

/-- At the end of the text only `%` may be left. -/
theorem open_end_iff {t p : List Char} {s : LikeState} (hs : LikeInv t p s)
    (hi : ¬ s.i < t.length) : (p.drop s.j).all (· == '%') = true ↔ Open t p s := by
  have hend : t.drop s.i = [] := List.drop_eq_nil_of_le (Nat.not_lt.1 hi)
  rw [← splits_end_iff, Open, hend]
  constructor
  · exact .inl
  · rintro (h | ⟨st, hstar, lead, rest, -, hlead, h⟩)
    · exact h
    · obtain ⟨lead', rest', hsplit, h'⟩ := hs.from_here hstar hlead h
      rw [hend] at hsplit
      rw [(List.append_eq_nil_iff.1 hsplit.symm).2] at h'
      exact h'

section Step

variable {t p : List Char} {s : LikeState}

/-- A pattern character consumed with the text character it faces. -/
theorem consumed (hs : LikeInv t p s) {a c : Char} (hp : p.drop s.j = a :: p.drop (s.j + 1))
    (ht : t.drop s.i = c :: t.drop (s.i + 1)) (hj : s.j < p.length) (hi : s.i < t.length)
    (hface : Faces a c) :
    LikeInv t p { s with i := s.i + 1, j := s.j + 1 }
      ∧ likeWork t p { s with i := s.i + 1, j := s.j + 1 } < likeWork t p s
      ∧ (Open t p { s with i := s.i + 1, j := s.j + 1 } ↔ Open t p s) := by
  refine ⟨⟨hi, hj, Nat.le_succ_of_le hs.resume_le, hs.star_lt, ?_⟩, ?_, ?_⟩
  · intro st hstar
    obtain ⟨seg, piece, hfaces, hseg, hpiece⟩ := hs.segment st hstar
    refine ⟨seg ++ [a], piece ++ [c], ?_, ?_, ?_⟩
    · exact List.rel_append hfaces (.cons hface .nil)
    · rw [hseg, hp, List.append_assoc]
      rfl
    · rw [hpiece, ht, List.append_assoc]
      rfl
  · show (t.length - s.resume) * (p.length + 1) + (p.length - (s.j + 1)) <
      (t.length - s.resume) * (p.length + 1) + (p.length - s.j)
    omega
  · rw [Open, Open, hp, ht, splits_faced hface]

/-- A `%` that meets another character is passed, and is the place to go back to. -/
theorem passed (hs : LikeInv t p s) {c : Char} (hp : p.drop s.j = '%' :: p.drop (s.j + 1))
    (ht : t.drop s.i = c :: t.drop (s.i + 1)) (hj : s.j < p.length) (hc : c ≠ '%') :
    LikeInv t p { s with star := some s.j, resume := s.i, j := s.j + 1 }
      ∧ likeWork t p { s with star := some s.j, resume := s.i, j := s.j + 1 } < likeWork t p s
      ∧ (Open t p { s with star := some s.j, resume := s.i, j := s.j + 1 } ↔ Open t p s) := by
  have hresume := hs.resume_le
  refine ⟨⟨hs.i_le, hj, Nat.le_refl s.i, ?_, ?_⟩, ?_, ?_⟩
  · intro st hstar
    cases hstar
    exact hj
  · intro st hstar
    cases hstar
    exact ⟨[], [], .nil, rfl, rfl⟩
  · show (t.length - s.i) * (p.length + 1) + (p.length - (s.j + 1)) <
      (t.length - s.resume) * (p.length + 1) + (p.length - s.j)
    have := Nat.mul_le_mul_right (p.length + 1) (show t.length - s.i ≤ t.length - s.resume by omega)
    omega
  · have hhere : Open t p { s with star := some s.j, resume := s.i, j := s.j + 1 } ↔
        ∃ run rest, t.drop s.i = run ++ rest ∧ Splits TakesPercent (p.drop (s.j + 1)) rest := by
      constructor
      · rintro (h | ⟨st, hstar, lead, rest, -, hlead, h⟩)
        · exact ⟨[], t.drop s.i, rfl, h⟩
        · cases hstar
          exact ⟨lead, rest, hlead, h⟩
      · rintro ⟨run, rest, hrun, h⟩
        by_cases hnil : run = []
        · subst hnil
          rw [List.nil_append] at hrun
          exact .inl (hrun ▸ h)
        · exact .inr ⟨s.j, rfl, run, rest, hnil, hrun, h⟩
    rw [hhere, Open, hp, ht, splits_any hc, ← ht]
    constructor
    · exact .inl
    · rintro (h | ⟨st, hstar, lead, rest, -, hlead, h⟩)
      · exact h
      -- what the older `%` could still reach, this one reaches as well
      · obtain ⟨lead', rest', hsplit, h'⟩ := hs.from_here hstar hlead h
        rw [hp] at h'
        obtain ⟨run, rest'', rfl, h''⟩ := h'.tail
        exact ⟨lead' ++ run, rest'', by rw [hsplit, List.append_assoc], h''⟩

/-- A mismatch goes back to the last `%`, one character further on. -/
theorem resumed (hs : LikeInv t p s) {st : Nat} (hstar : s.star = some st) (hi : s.i < t.length)
    (hnone : ¬ Splits TakesPercent (p.drop s.j) (t.drop s.i)) :
    LikeInv t p { s with j := st + 1, resume := s.resume + 1, i := s.resume + 1 }
      ∧ likeWork t p { s with j := st + 1, resume := s.resume + 1, i := s.resume + 1 }
        < likeWork t p s
      ∧ (Open t p { s with j := st + 1, resume := s.resume + 1, i := s.resume + 1 }
        ↔ Open t p s) := by
  have hresume := hs.resume_le
  have hst := hs.star_lt st hstar
  have hcons : t.drop s.resume = t[s.resume] :: t.drop (s.resume + 1) :=
    List.drop_eq_getElem_cons (by omega)
  refine ⟨⟨?_, hst, Nat.le_refl _, hs.star_lt, ?_⟩, ?_, ?_⟩
  · show s.resume + 1 ≤ t.length
    omega
  · intro st' hstar'
    obtain rfl := Option.some.inj (hstar.symm.trans hstar')
    exact ⟨[], [], .nil, rfl, rfl⟩
  · show (t.length - (s.resume + 1)) * (p.length + 1) + (p.length - (st + 1)) <
      (t.length - s.resume) * (p.length + 1) + (p.length - s.j)
    -- the text resumed from is shorter, which outweighs the pattern that is left
    obtain ⟨d, hd⟩ : ∃ d, t.length - s.resume = d + 1 := ⟨t.length - s.resume - 1, by omega⟩
    rw [hd, Nat.sub_add_eq, hd, Nat.add_sub_cancel, Nat.succ_mul]
    omega
  -- the percent takes one character more: with none more there is no match, by hypothesis
  · constructor
    · rintro (h | ⟨st', hstar', lead, rest, -, hlead, h⟩)
      · exact .inr ⟨st, hstar, [t[s.resume]], _, List.cons_ne_nil _ _, hcons, h⟩
      · have hlead : t.drop (s.resume + 1) = lead ++ rest := hlead
        refine .inr ⟨st', hstar', t[s.resume] :: lead, rest, List.cons_ne_nil _ _, ?_, h⟩
        rw [hcons, hlead, List.cons_append]
    · rintro (h | ⟨st', hstar', lead, rest, hne, hlead, h⟩)
      · exact absurd h hnone
      · obtain rfl := Option.some.inj (hstar.symm.trans hstar')
        match lead, hne with
        | x :: lead, _ =>
          rw [hcons, List.cons_append] at hlead
          obtain ⟨-, hlead⟩ := List.cons.inj hlead
          by_cases hnil : lead = []
          · subst hnil
            rw [List.nil_append] at hlead
            exact .inl (hlead ▸ h)
          · exact .inr ⟨st, hstar, lead, rest, hnil, hlead, h⟩

/-- A round keeps the invariant and what can still be found, and works off some of what is left
to do; where there is none, nothing can be found. -/
theorem likeStep_open (hs : LikeInv t p s) (hi : s.i < t.length) :
    match likeStep t p s with
    | some s' => LikeInv t p s' ∧ likeWork t p s' < likeWork t p s ∧ (Open t p s' ↔ Open t p s)
    | none => ¬ Open t p s := by
  have ht : t.drop s.i = t[s.i] :: t.drop (s.i + 1) := List.drop_eq_getElem_cons hi
  have hc : t[s.i]? = some t[s.i] := List.getElem?_eq_getElem hi
  rw [likeStep]
  -- neither the character nor a `%`: only the last `%` may help
  have hstuck : ¬ Splits TakesPercent (p.drop s.j) (t.drop s.i) → s.star = none →
      ¬ Open t p s := by
    rintro hnone hstar (h | ⟨st, hst, -⟩)
    · exact hnone h
    · rw [hstar] at hst
      cases hst
  by_cases hj : s.j < p.length
  · have hp : p.drop s.j = p[s.j] :: p.drop (s.j + 1) := List.drop_eq_getElem_cons hj
    have ha : p[s.j]? = some p[s.j] := List.getElem?_eq_getElem hj
    rw [ha, hc]
    by_cases hface : Faces p[s.j] t[s.i]
    · have hcond : s.j < p.length ∧ (some p[s.j] = some '_' ∨ some p[s.j] = some t[s.i]) :=
        ⟨hj, hface.imp (congrArg some) (congrArg some)⟩
      rw [if_pos hcond]
      exact consumed hs hp ht hj hi hface
    · have hcond : ¬ (s.j < p.length ∧ (some p[s.j] = some '_' ∨ some p[s.j] = some t[s.i])) :=
        fun h => hface (h.2.imp Option.some.inj Option.some.inj)
      rw [if_neg hcond]
      by_cases hany : p[s.j] = '%'
      · rw [if_pos ⟨hj, congrArg some hany⟩]
        rw [hany] at hp hface
        exact passed hs hp ht hj (fun h => hface (.inr h.symm))
      · rw [if_neg (fun h => hany (Option.some.inj h.2))]
        have hnone : ¬ Splits TakesPercent (p.drop s.j) (t.drop s.i) := by
          rw [hp, ht]
          exact not_splits hface hany
        cases hstar : s.star with
        | none => exact hstuck hnone hstar
        | some st =>
          have h := resumed hs hstar hi hnone
          rw [hstar] at h
          exact h
  · rw [if_neg (fun h => hj h.1), if_neg (fun h => hj h.1)]
    have hnone : ¬ Splits TakesPercent (p.drop s.j) (t.drop s.i) := by
      rw [List.drop_eq_nil_of_le (Nat.not_lt.1 hj), ht, splits_nil_iff]
      exact List.cons_ne_nil _ _
    cases hstar : s.star with
    | none => exact hstuck hnone hstar
    | some st =>
      have h := resumed hs hstar hi hnone
      rw [hstar] at h
      exact h

end Step

/-- The matcher finds a split that is still open. The induction is on the rounds it may take. -/
theorem likeLoop_open {t p : List Char} {fuel : Nat} {s : LikeState} (hs : LikeInv t p s)
    (hfuel : likeWork t p s < fuel) : likeLoop t p fuel s = true ↔ Open t p s := by
  induction fuel generalizing s with
  | zero => cases hfuel
  | succ fuel ih =>
    rw [likeLoop]
    by_cases hi : s.i < t.length
    · rw [if_pos hi]
      have hstep := likeStep_open hs hi
      cases h : likeStep t p s with
      | none =>
        rw [h] at hstep
        exact ⟨fun h => (Bool.false_ne_true h).elim, fun h => (hstep h).elim⟩
      | some s' =>
        rw [h] at hstep
        obtain ⟨hs', hwork, hopen⟩ := hstep
        rw [← hopen]
        exact ih hs' (by omega)
    · rw [if_neg hi]
      exact open_end_iff hs hi

/-- From the start the matcher decides whether there is a split at all. -/
theorem likeLoop_iff {t p : List Char} :
    likeLoop t p ((t.length + 2) * (p.length + 2)) ⟨0, 0, none, 0⟩ = true ↔
      Splits TakesPercent p t := by
  have hs : LikeInv t p ⟨0, 0, none, 0⟩ :=
    ⟨Nat.zero_le _, Nat.zero_le _, Nat.le_refl 0, (fun _ h => by cases h), fun _ h => by cases h⟩
  have hwork : likeWork t p ⟨0, 0, none, 0⟩ < (t.length + 2) * (p.length + 2) := by
    rw [likeWork, Nat.sub_zero, Nat.sub_zero, Nat.add_mul, Nat.mul_add, Nat.mul_add]
    omega
  rw [likeLoop_open hs hwork]
  constructor
  · rintro (h | ⟨_, h, -⟩)
    · exact h
    · cases h
  · exact .inl

/-! ## When the matcher is right -/

/-- The matcher says what the pattern means exactly when a text that matches can be split with
every `%` of the pattern that stands at a `%` of the text taking that one character. -/
theorem likeMatch_meets (fx : Intrinsics) (text pattern : String) :
    (likeMatch fx text pattern false = true ↔ Matches text pattern) ↔
      (Matches text pattern → Splits TakesPercent pattern.toList text.toList) := by
  have hcode : likeMatch fx text pattern false = true ↔
      Splits TakesPercent pattern.toList text.toList := likeLoop_iff
  rw [hcode]
  constructor
  · exact fun h => h.2
  · exact fun h => ⟨Splits.mono (fun _ _ _ => trivial), h⟩

/-- A text without a percent sign is matched as its pattern means. -/
theorem Splits.of_no_percent {p t : List Char} (hno : '%' ∉ t) (h : Splits (fun _ _ => True) p t) :
    Splits TakesPercent p t := by
  induction h with
  | nil => exact .nil
  | @any run p t _ _ ih =>
    refine .any (fun hhead => ?_) (ih (fun hmem => hno (List.mem_append_right _ hmem)))
    exact absurd (List.mem_of_mem_head? hhead) hno
  | one _ ih => exact .one (ih (fun hmem => hno (List.mem_cons_of_mem _ hmem)))
  | char hany hone _ ih =>
    exact .char hany hone (ih (fun hmem => hno (List.mem_cons_of_mem _ hmem)))

/-- The pattern of any run does not match a text that begins with a percent sign. -/
theorem percent_is_taken_literally :
    Matches "%x" "%" ∧ likeMatch integerIntrinsics "%x" "%" false = false := by
  have hrun : Splits (fun _ _ => True) ('%' :: []) (['%', 'x'] ++ []) := .any trivial .nil
  exact ⟨hrun, by decide +kernel⟩

end Edb.Query
