import Edb.Lib.Machine
import Edb.Pager.Freelist

/-!
# The pager without its cache

What the pager is for: a file, the pages staged for the next commit laid over it, and the free
list. No frame of the file is kept, so there is no budget and nothing to evict.

A page that its holder wrote reads as it was last written (`fits_step`, `readPage_of_fits`): no
other call can stage anything over it, and a commit moves it to the file. This needs that the page
is on the free list nowhere, and so that every `free` of it returned a page that was held.
-/

namespace Edb

variable {α : Type}

/-- A call of the pager. -/
inductive PagerCall (α : Type) where
  | alloc
  | writePage (id : Nat) (payload : α)
  | readPage (id : Nat)
  | free (id : Nat)
  | commit

/-- What a call returns. -/
inductive PagerReply (α : Type) where
  | page (id : Nat)
  | frame (f : Frame α)
  | done

/-- The reply to a call, and the file as the call leaves it. -/
abbrev PagerOutput (α : Type) := Except PagerError (PagerReply α) × Image α

/-- The pager's state, with the staged pages in place of the cache. -/
@[ext]
structure Uncached (α : Type) where
  file : Image α
  staged : Nat → Option (Frame α)
  metadata : Meta
  activeSlot : Nat
  frees : List Nat
  trunks : List Nat

namespace Uncached

/-! ## Calls -/

def alloc (u : Uncached α) : Nat × Uncached α :=
  match u.frees.getLast? with
  | some id => (id, { u with frees := u.frees.dropLast })
  | none => (u.metadata.pageCount,
      { u with metadata := { u.metadata with pageCount := u.metadata.pageCount + 1 } })

def readPage (u : Uncached α) (id : Nat) : Except PagerError (Frame α) :=
  if id < firstDataPage ∨ id ≥ u.metadata.pageCount then
    .error (.pageOutOfRange id u.metadata.pageCount)
  else
    match u.staged id with
    | some f => .ok f
    | none => u.file.readAt id

def writePage [Payload α] (u : Uncached α) (id : Nat) (payload : α) :
    Except PagerError (Uncached α) :=
  if id < firstDataPage ∨ id ≥ u.metadata.pageCount then
    .error (.pageOutOfRange id u.metadata.pageCount)
  else if Payload.len payload > pagePayloadSize then
    .error (.payloadTooLarge (Payload.len payload) pagePayloadSize)
  else .ok { u with
    staged := Function.update u.staged id (some { id := id, body := .data payload }) }

def free (u : Uncached α) (id : Nat) : Except PagerError (Uncached α) :=
  if id < firstDataPage ∨ id ≥ u.metadata.pageCount then
    .error (.pageOutOfRange id u.metadata.pageCount)
  else .ok { u with frees := u.frees ++ [id] }

/-- Stage the trunks one after the other, each linking to the one before. -/
def stageChain (staged : Nat → Option (Frame α)) (head : Nat) :
    List Trunk → (Nat → Option (Frame α)) × Nat
  | [] => (staged, head)
  | t :: ts => stageChain (Function.update staged t.id
      (some { id := t.id, body := .freelist head t.ids })) t.id ts

/-- The trunks the free list is packed into. -/
def nextTrunks (u : Uncached α) : List Trunk := packTrunks u.frees.length u.frees

/-- The staged pages with the trunks among them, and the head of the chain. -/
def chained (u : Uncached α) : (Nat → Option (Frame α)) × Nat :=
  stageChain u.staged 0 u.nextTrunks

/-- The file extended to the allocation mark. -/
def grown (u : Uncached α) : Image α :=
  if u.file.len < u.metadata.pageCount then u.file.apply (.resize u.metadata.pageCount) else u.file

/-- The file with the staged pages in it. -/
def flushed (u : Uncached α) : Image α where
  len := u.grown.len
  cells := fun id => (u.chained.1 id).or (u.grown.cells id)

def nextMeta (u : Uncached α) : Meta := { u.metadata with
  freelistHead := u64ToOpt u.chained.2
  freelistLen := (u.nextTrunks.flatMap Trunk.ids).length
  txnId := u.metadata.txnId + 1 }

def commit (u : Uncached α) : Uncached α where
  file := u.flushed.apply (.page (1 - u.activeSlot) (metaFrame u.nextMeta (1 - u.activeSlot)))
  staged := fun _ => none
  metadata := u.nextMeta
  activeSlot := 1 - u.activeSlot
  frees := u.nextTrunks.flatMap Trunk.ids ++ u.trunks
  trunks := u.nextTrunks.map Trunk.id

def answer (u : Uncached α) (reply : Except PagerError (PagerReply α)) :
    PagerOutput α × Uncached α := ((reply, u.file), u)

/-- The state after an operation, or the state before it if it fails. -/
def attempt (u : Uncached α) : Except PagerError (Uncached α) → PagerOutput α × Uncached α
  | .ok u' => u'.answer (.ok .done)
  | .error e => u.answer (.error e)

def step [Payload α] (u : Uncached α) : PagerCall α → PagerOutput α × Uncached α
  | .alloc => u.alloc.2.answer (.ok (.page u.alloc.1))
  | .writePage id payload => u.attempt (u.writePage id payload)
  | .readPage id => u.answer ((u.readPage id).map .frame)
  | .free id => u.attempt (u.free id)
  | .commit => u.commit.answer (.ok .done)

/-! ## The free list -/

/-- The free pages and the trunks. -/
def pages (u : Uncached α) : List Nat := u.frees ++ u.trunks

/-- The pages on the free list are pages of the file, and staged frames name their page. -/
structure Ok (u : Uncached α) : Prop where
  range : ∀ id ∈ u.pages, firstDataPage ≤ id ∧ id < u.metadata.pageCount
  mark : firstDataPage ≤ u.metadata.pageCount
  self : ∀ id f, u.staged id = some f → f.id = id

variable {u u' : Uncached α} {id : Nat}

/-- A commit moves no page on or off the free list. -/
theorem commit_pages (u : Uncached α) : u.commit.pages.Perm u.pages := by
  have hpack : u.frees.Perm (u.nextTrunks.flatMap Trunk.ids ++ u.nextTrunks.map Trunk.id) :=
    packTrunks_pages u.frees
  rw [List.perm_iff_count] at hpack ⊢
  intro a
  have hcount := hpack a
  simp only [pages, commit, List.count_append] at hcount ⊢
  omega

theorem Ok.write [Payload α] (h : u.Ok) {payload : α} (hrun : u.writePage id payload = .ok u') :
    u'.Ok := by
  unfold writePage at hrun
  split at hrun
  next => cases hrun
  next =>
    split at hrun
    next => cases hrun
    next =>
      cases hrun
      refine ⟨h.range, h.mark, fun id' f hf => ?_⟩
      change Function.update u.staged id _ id' = some f at hf
      by_cases hid : id' = id
      · subst hid
        rw [Function.update_self] at hf
        cases hf
        rfl
      · rw [Function.update_of_ne hid] at hf
        exact h.self id' f hf

theorem Ok.free (h : u.Ok) (hrun : u.free id = .ok u') : u'.Ok := by
  unfold Uncached.free at hrun
  split at hrun
  next => cases hrun
  next hid =>
    cases hrun
    refine ⟨fun id' hid' => ?_, h.mark, h.self⟩
    change id' ∈ (u.frees ++ [id]) ++ u.trunks at hid'
    rw [List.append_assoc, List.mem_append, List.singleton_append, List.mem_cons] at hid'
    rcases hid' with hm | rfl | hm
    · exact h.range id' (List.mem_append_left _ hm)
    · change firstDataPage ≤ id' ∧ id' < u.metadata.pageCount
      omega
    · exact h.range id' (List.mem_append_right _ hm)

theorem Ok.alloc (h : u.Ok) : u.alloc.2.Ok := by
  unfold Uncached.alloc
  cases hlast : u.frees.getLast? with
  | some last =>
    have hsub : (u.frees.dropLast ++ u.trunks).Sublist u.pages :=
      (List.dropLast_sublist _).append_right _
    exact ⟨fun id hid => h.range id (hsub.subset hid), h.mark, h.self⟩
  | none =>
    refine ⟨fun id hid => ?_, Nat.le_succ_of_le h.mark, h.self⟩
    exact ⟨(h.range id hid).1, Nat.lt_succ_of_lt (h.range id hid).2⟩

theorem Ok.commit (h : u.Ok) : u.commit.Ok :=
  ⟨fun id hid => h.range id (u.commit_pages.subset hid), h.mark, fun _ _ hf => by cases hf⟩

theorem Ok.step [Payload α] (h : u.Ok) (c : PagerCall α) : (u.step c).2.Ok := by
  have hattempt : ∀ r : Except PagerError (Uncached α), (∀ u', r = .ok u' → u'.Ok) →
      (u.attempt r).2.Ok := by
    intro r hr
    cases r with
    | ok u' => exact hr u' rfl
    | error e => exact h
  cases c with
  | alloc => exact h.alloc
  | writePage id payload => exact hattempt _ fun u' hu' => h.write hu'
  | readPage id => exact h
  | free id => exact hattempt _ fun u' hu' => h.free hu'
  | commit => exact h.commit

/-! ## What a page reads as -/

/-- What is staged for a page, or else what the file has. -/
def view (u : Uncached α) (id : Nat) : Option (Frame α) := (u.staged id).or (u.file.frameAt id)

/-- A page in range is read as it is shown. -/
theorem readPage_of_view {f : Frame α} (hlo : firstDataPage ≤ id)
    (hhi : id < u.metadata.pageCount) (h : u.view id = some f) : u.readPage id = .ok f := by
  unfold view at h
  unfold readPage
  rw [if_neg (by omega)]
  cases hstaged : u.staged id with
  | some g =>
    rw [hstaged] at h
    cases h
    rfl
  | none =>
    rw [hstaged, Option.none_or] at h
    exact Image.readAt_eq_ok.2 h

theorem stageChain_of_not_mem (ts : List Trunk) (staged : Nat → Option (Frame α)) (head : Nat)
    (h : id ∉ ts.map Trunk.id) : (stageChain staged head ts).1 id = staged id := by
  induction ts generalizing staged head with
  | nil => rfl
  | cons t ts ih =>
    rw [List.map_cons, List.mem_cons, not_or] at h
    rw [stageChain, ih _ _ h.2, Function.update_of_ne h.1]

/-- Every staged frame carries its own id. -/
theorem stageChain_self (ts : List Trunk) {staged : Nat → Option (Frame α)} (head : Nat)
    (h : ∀ id f, staged id = some f → f.id = id) :
    ∀ id f, (stageChain staged head ts).1 id = some f → f.id = id := by
  induction ts generalizing staged head with
  | nil => exact h
  | cons t ts ih =>
    refine ih t.id fun id f hf => ?_
    by_cases hid : id = t.id
    · subst hid
      rw [Function.update_self] at hf
      cases hf
      rfl
    · rw [Function.update_of_ne hid] at hf
      exact h id f hf

theorem grown_frameAt (u : Uncached α) (id : Nat) : u.grown.frameAt id = u.file.frameAt id := by
  unfold grown
  split
  next h => exact Image.frameAt_resize _ (Nat.le_of_lt h)
  next => rfl

theorem le_grown_len (u : Uncached α) : u.metadata.pageCount ≤ u.grown.len := by
  unfold grown
  split
  next => exact Nat.le_refl _
  next h => exact Nat.not_lt.1 h

/-- After a commit the file reads as the staged pages did over the file before. -/
theorem commit_frameAt (h : u.Ok) (hlo : firstDataPage ≤ id) (hhi : id < u.metadata.pageCount) :
    u.commit.file.frameAt id = (u.chained.1 id).or (u.file.frameAt id) := by
  have hlen : id < u.grown.len := Nat.lt_of_lt_of_le hhi u.le_grown_len
  have hslot : 1 - u.activeSlot ≠ id := by
    have : firstDataPage = 2 := rfl
    omega
  refine (Image.frameAt_page_ne u.flushed _ hslot hlen).trans ?_
  rw [← u.grown_frameAt id]
  unfold Image.frameAt
  change (if id < u.grown.len then
    ((u.chained.1 id).or (u.grown.cells id)).filter (fun f => f.id = id) else none) = _
  rw [if_pos hlen, if_pos hlen]
  cases hstaged : u.chained.1 id with
  | none => rw [Option.none_or, Option.none_or]
  | some f =>
    have hself : f.id = id := stageChain_self _ _ h.self id f hstaged
    rw [Option.some_or, Option.some_or, Option.filter_some, if_pos (decide_eq_true hself)]

/-- A commit changes no page that is not on the free list. -/
theorem commit_view (h : u.Ok) (hlo : firstDataPage ≤ id) (hhi : id < u.metadata.pageCount)
    (hid : id ∉ u.pages) : u.commit.view id = u.view id := by
  have hnot : id ∉ u.nextTrunks.map Trunk.id := fun ht =>
    hid (List.mem_append_left _ (packTrunks_subset ht))
  have hstaged : u.chained.1 id = u.staged id := stageChain_of_not_mem _ _ _ hnot
  change (none : Option (Frame α)).or (u.commit.file.frameAt id) = u.view id
  rw [Option.none_or, commit_frameAt h hlo hhi, hstaged, view]

end Uncached

/-! ## A page and its holder -/

/-- How a page stands. -/
inductive Standing (α : Type) where
  /-- Not handed out since it was last returned. -/
  | away
  /-- Handed out, and not written yet. -/
  | held
  /-- Handed out and written. -/
  | wrote (payload : α)
  /-- Returned at some time while nobody held it. -/
  | misfreed
  deriving DecidableEq

namespace Standing

def handOut : Standing α → Standing α
  | .misfreed => .misfreed
  | _ => .held

def write (payload : α) : Standing α → Standing α
  | .held => .wrote payload
  | .wrote _ => .wrote payload
  | s => s

def release : Standing α → Standing α
  | .held => .away
  | .wrote _ => .away
  | _ => .misfreed

/-- What a call and its reply mean for a page. -/
def after (id : Nat) (s : Standing α) : PagerCall α × PagerOutput α → Standing α
  | (.alloc, .ok (.page id'), _) => if id' = id then s.handOut else s
  | (.writePage id' payload, .ok _, _) => if id' = id then s.write payload else s
  | (.free id', .ok _, _) => if id' = id then s.release else s
  | _ => s

end Standing

namespace Uncached

/-- The page is handed out and on the free list nowhere. -/
structure Out (u : Uncached α) (id : Nat) : Prop where
  lo : firstDataPage ≤ id
  hi : id < u.metadata.pageCount
  off : u.pages.count id = 0

/-- The state bears out how a page stands. -/
def Fits (u : Uncached α) (id : Nat) : Standing α → Prop
  | .away => u.pages.count id ≤ 1
  | .held => u.Out id
  | .wrote payload => u.Out id ∧ u.view id = some { id := id, body := .data payload }
  | .misfreed => True

variable {u u' : Uncached α} {id : Nat} {s : Standing α}

/-- A written page reads as it was last written. -/
theorem readPage_of_fits {payload : α} (h : u.Fits id (.wrote payload)) :
    u.readPage id = .ok { id := id, body := .data payload } :=
  readPage_of_view h.1.lo h.1.hi h.2

/-- What leaves the page, the free list and the mark alone leaves its standing. -/
theorem Fits.congr (h : u.Fits id s) (hcount : u'.pages.count id = u.pages.count id)
    (hmark : u.metadata.pageCount ≤ u'.metadata.pageCount)
    (hview : u.Out id → u'.view id = u.view id) : u'.Fits id s := by
  have hout : u.Out id → u'.Out id := fun ho =>
    ⟨ho.lo, Nat.lt_of_lt_of_le ho.hi hmark, hcount.trans ho.off⟩
  cases s with
  | away => exact hcount.trans_le h
  | held => exact hout h
  | wrote payload => exact ⟨hout h.1, (hview h.1).trans h.2⟩
  | misfreed => trivial

/-- Handing out a page: it leaves the free list, or it is the next page of the file. -/
theorem Fits.alloc (hu : u.Ok) (h : u.Fits id s) :
    u.alloc.2.Fits id (if u.alloc.1 = id then s.handOut else s) := by
  unfold Uncached.alloc
  cases hlast : u.frees.getLast? with
  | some last =>
    obtain ⟨rest, hrest⟩ := List.getLast?_eq_some_iff.1 hlast
    have hpages : u.pages.count id = (rest ++ u.trunks).count id + [last].count id := by
      simp only [pages, hrest, List.count_append]
      omega
    have hdrop : u.frees.dropLast = rest := by rw [hrest, List.dropLast_concat]
    simp only [hdrop]
    -- the last free page is handed out: it was listed once, so it is free no more
    by_cases hid : last = id
    · subst hid
      rw [if_pos rfl]
      rw [List.count_singleton_self] at hpages
      have hrange := hu.range last (List.mem_append_left _ (by rw [hrest]; simp))
      cases s with
      | away =>
        have hle : u.pages.count last ≤ 1 := h
        exact ⟨hrange.1, hrange.2, by change (rest ++ u.trunks).count last = 0; omega⟩
      | held =>
        have hoff := h.off
        omega
      | wrote payload =>
        have hoff := h.1.off
        omega
      | misfreed => trivial
    · rw [if_neg hid]
      rw [List.count_singleton, beq_false_of_ne hid] at hpages
      exact h.congr hpages.symm (Nat.le_refl _) fun _ => rfl
  | none =>
    -- no page is free: the file grows by one that no list has
    by_cases hid : u.metadata.pageCount = id
    · subst hid
      rw [if_pos rfl]
      have hoff : u.pages.count u.metadata.pageCount = 0 :=
        List.count_eq_zero.2 fun hm => absurd (hu.range _ hm).2 (Nat.lt_irrefl _)
      cases s with
      | away => exact ⟨hu.mark, Nat.lt_succ_self _, hoff⟩
      | held => exact absurd h.hi (Nat.lt_irrefl _)
      | wrote payload => exact absurd h.1.hi (Nat.lt_irrefl _)
      | misfreed => trivial
    · rw [if_neg hid]
      exact h.congr rfl (Nat.le_succ _) fun _ => rfl

/-- A write changes what is known of its own page alone. -/
theorem Fits.write [Payload α] (h : u.Fits id s) {id' : Nat} {payload : α}
    (hrun : u.writePage id' payload = .ok u') :
    u'.Fits id (if id' = id then s.write payload else s) := by
  have hu' : u' = { u with
      staged := Function.update u.staged id' (some { id := id', body := .data payload }) } := by
    unfold writePage at hrun
    split at hrun
    next => cases hrun
    next =>
      split at hrun
      next => cases hrun
      next =>
        cases hrun
        rfl
  subst hu'
  by_cases hid : id' = id
  · subst hid
    rw [if_pos rfl]
    have hview : Option.or (Function.update u.staged id'
        (some ({ id := id', body := .data payload } : Frame α)) id') (u.file.frameAt id') =
          some { id := id', body := .data payload } := by
      rw [Function.update_self, Option.some_or]
    cases s with
    | away => exact h
    | held => exact ⟨⟨h.lo, h.hi, h.off⟩, hview⟩
    | wrote old => exact ⟨⟨h.1.lo, h.1.hi, h.1.off⟩, hview⟩
    | misfreed => trivial
  · rw [if_neg hid]
    refine h.congr rfl (Nat.le_refl _) fun _ => ?_
    change Option.or (Function.update u.staged id' _ id) _ = _
    rw [Function.update_of_ne (Ne.symm hid)]
    rfl

/-- A free changes what is known of its own page alone. -/
theorem Fits.free (h : u.Fits id s) {id' : Nat} (hrun : u.free id' = .ok u') :
    u'.Fits id (if id' = id then s.release else s) := by
  have hu' : u' = { u with frees := u.frees ++ [id'] } := by
    unfold Uncached.free at hrun
    split at hrun
    next => cases hrun
    next =>
      cases hrun
      rfl
  have hpages : u'.pages.count id = u.pages.count id + [id'].count id := by
    simp only [hu', pages, List.count_append]
    omega
  by_cases hid : id' = id
  · subst hid
    rw [if_pos rfl]
    rw [List.count_singleton_self] at hpages
    cases s with
    | away => trivial
    | held =>
      have hoff := h.off
      change u'.pages.count id' ≤ 1
      omega
    | wrote payload =>
      have hoff := h.1.off
      change u'.pages.count id' ≤ 1
      omega
    | misfreed => trivial
  · rw [if_neg hid]
    rw [List.count_singleton, beq_false_of_ne hid] at hpages
    refine h.congr hpages ?_ fun _ => ?_
    · rw [hu']
    · rw [hu']
      rfl

theorem Fits.commit (hu : u.Ok) (h : u.Fits id s) : u.commit.Fits id s :=
  h.congr (u.commit_pages.count_eq id) (Nat.le_refl _) fun ho =>
    commit_view hu ho.lo ho.hi (List.count_eq_zero.1 ho.off)

/-- Every call keeps the standing of a page in step with the state. -/
theorem fits_step [Payload α] (hu : u.Ok) (h : u.Fits id s) (c : PagerCall α) :
    (u.step c).2.Fits id (s.after id (c, (u.step c).1)) := by
  cases c with
  | alloc => exact h.alloc hu
  | writePage id' payload =>
    have hstep : u.step (.writePage id' payload) = u.attempt (u.writePage id' payload) := rfl
    rw [hstep]
    cases hrun : u.writePage id' payload with
    | ok u' => exact h.write hrun
    | error e => exact h
  | readPage id' => exact h
  | free id' =>
    have hstep : u.step (.free id') = u.attempt (u.free id') := rfl
    rw [hstep]
    cases hrun : u.free id' with
    | ok u' => exact h.free hrun
    | error e => exact h
  | commit => exact h.commit hu

end Uncached

end Edb
