import Mathlib.Logic.Function.Basic
import Edb.Pager.Page

/-!
# The block store and its crashes

The backing file, in pages. Writes go to a volatile tail and become durable at `sync`. A crash
loses the process and, of the writes since the last `sync`, keeps an arbitrary subset: each
one independently reaches the disk, is lost, or tears its page, and a torn page fails its
checksum.
-/

namespace Edb

variable {α : Type}

/-- The contents of the file: its length in pages, and the frame at each page, `none` where
the bytes fail their checksum (zeros included). -/
structure Image (α : Type) where
  len : Nat
  cells : Nat → Option (Frame α)

/-- A modification of the file. -/
inductive Write (α : Type) where
  | page (id : Nat) (frame : Frame α)
  | resize (len : Nat)

namespace Image

def empty : Image α where
  len := 0
  cells := fun _ => none

def apply (i : Image α) : Write α → Image α
  | .page id frame =>
      { len := max i.len (id + 1), cells := Function.update i.cells id (some frame) }
  | .resize len =>
      { len := len, cells := fun id => if id < len ∧ id < i.len then i.cells id else none }

/-- The frame a read of page `id` finds: inside the file and passing verification. -/
def frameAt (i : Image α) (id : Nat) : Option (Frame α) :=
  if id < i.len then (i.cells id).filter (fun f => f.id = id) else none

/-- Read and verify one page. -/
def readAt (i : Image α) (id : Nat) : Except PagerError (Frame α) :=
  if id < i.len then verify (i.cells id) id else .error (.outOfBounds id i.len)

/-- A read returns the frame of the page, and nothing else. -/
theorem readAt_eq_ok {i : Image α} {id : Nat} {f : Frame α} :
    i.readAt id = .ok f ↔ i.frameAt id = some f := by
  unfold readAt frameAt verify
  by_cases hlen : id < i.len
  · simp only [hlen, if_true]
    cases i.cells id with
    | none => simp
    | some g =>
        by_cases hid : g.id = id
        · simp only [hid, if_true, Option.filter_some, decide_true]
          simp
        · simp only [hid, if_false, Option.filter_some, decide_false]
          simp
  · simp [hlen]

theorem id_of_frameAt {i : Image α} {id : Nat} {f : Frame α} (h : i.frameAt id = some f) :
    f.id = id := by
  unfold frameAt at h
  split at h
  · simpa using (Option.filter_eq_some_iff.mp h).2
  · cases h

theorem lt_of_frameAt {i : Image α} {id : Nat} {f : Frame α} (h : i.frameAt id = some f) :
    id < i.len := by
  unfold frameAt at h
  split at h
  next hlt => exact hlt
  next => cases h

theorem frameAt_page_self (i : Image α) {f : Frame α} :
    (i.apply (.page f.id f)).frameAt f.id = some f := by
  have hlt : f.id < max i.len (f.id + 1) := by omega
  simp [frameAt, apply, hlt]

theorem frameAt_page_ne (i : Image α) {id id' : Nat} (f : Frame α) (h : id ≠ id')
    (hlen : id' < i.len) : (i.apply (.page id f)).frameAt id' = i.frameAt id' := by
  have hlt : id' < max i.len (id + 1) := by omega
  simp [frameAt, apply, hlt, hlen, Function.update_of_ne (Ne.symm h)]

/-- Growing the file leaves every frame it has. -/
theorem frameAt_resize (i : Image α) {len : Nat} {id : Nat} (hlen : i.len ≤ len) :
    (i.apply (.resize len)).frameAt id = i.frameAt id := by
  unfold frameAt apply
  by_cases h : id < i.len
  · have h' : id < len := by omega
    simp [h, h']
  · simp [h]

theorem len_apply_page (i : Image α) (id : Nat) (f : Frame α) :
    (i.apply (.page id f)).len = max i.len (id + 1) := rfl

theorem len_apply_resize (i : Image α) (len : Nat) : (i.apply (.resize len)).len = len := rfl

end Image

/-! ## Durability -/

/-- A file whose latest writes are not durable yet. -/
structure Backend (α : Type) where
  /-- The contents as of the last `sync`. -/
  durable : Image α
  /-- The writes since, oldest first. -/
  unsynced : List (Write α)

namespace Backend

/-- What the running process reads: every write, durable or not. -/
def current (b : Backend α) : Image α := b.unsynced.foldl Image.apply b.durable

def writeAt (b : Backend α) (id : Nat) (frame : Frame α) : Backend α :=
  { b with unsynced := b.unsynced ++ [.page id frame] }

def truncate (b : Backend α) (len : Nat) : Backend α :=
  { b with unsynced := b.unsynced ++ [.resize len] }

def sync (b : Backend α) : Backend α where
  durable := b.current
  unsynced := []

/-- A backend just after opening a file with these contents. -/
def ofImage (i : Image α) : Backend α where
  durable := i
  unsynced := []

theorem current_of_synced {b : Backend α} (h : b.unsynced = []) : b.current = b.durable := by
  unfold current
  rw [h]
  rfl

@[simp] theorem current_writeAt (b : Backend α) (id : Nat) (f : Frame α) :
    (b.writeAt id f).current = b.current.apply (.page id f) := by
  simp [current, writeAt, List.foldl_append]

@[simp] theorem current_truncate (b : Backend α) (len : Nat) :
    (b.truncate len).current = b.current.apply (.resize len) := by
  simp [current, truncate, List.foldl_append]

@[simp] theorem current_sync (b : Backend α) : b.sync.current = b.current := rfl

@[simp] theorem current_ofImage (i : Image α) : (ofImage i).current = i := rfl

end Backend

/-- What a crash does to one unsynced write. -/
inductive Fate where
  | kept
  | lost
  | torn
  deriving DecidableEq, Repr

/-- The effect of one unsynced write after the crash. A resize writes no page, so it can only
be kept or lost. -/
def Image.survive (i : Image α) : Write α → Fate → Image α
  | w, .kept => i.apply w
  | _, .lost => i
  | .page id _, .torn =>
      { len := max i.len (id + 1), cells := Function.update i.cells id none }
  | .resize len, .torn => i.apply (.resize len)

/-- The file a crash leaves, one fate per unsynced write (a missing fate is a lost write). -/
def Image.afterCrash : Image α → List (Write α) → List Fate → Image α
  | i, [], _ => i
  | i, _ :: _, [] => i
  | i, w :: ws, f :: fs => (i.survive w f).afterCrash ws fs

def Backend.crash (b : Backend α) (fates : List Fate) : Image α :=
  b.durable.afterCrash b.unsynced fates

/-! ## What a crash cannot touch -/

/-- The page a write changes. -/
def Write.target : Write α → Option Nat
  | .page id _ => some id
  | .resize _ => none

/-- The write never shortens the file below `n` pages. -/
def Write.Extends (n : Nat) : Write α → Prop
  | .page _ _ => True
  | .resize len => n ≤ len

/-- Whatever becomes of a write, the frames it does not aim at stay as they are. -/
theorem Image.frameAt_survive {i : Image α} {w : Write α} {id : Nat} (f : Fate)
    (htarget : w.target ≠ some id) (hext : w.Extends i.len) (hlen : id < i.len) :
    (i.survive w f).frameAt id = i.frameAt id ∧ i.len ≤ (i.survive w f).len := by
  have hpage : ∀ id' fr, w = .page id' fr → id' ≠ id := by
    intro id' fr hw h
    exact htarget (by rw [hw, h]; rfl)
  cases w with
  | page id' fr =>
      have hne := hpage id' fr rfl
      cases f with
      | kept =>
          refine ⟨Image.frameAt_page_ne i fr hne hlen, ?_⟩
          change i.len ≤ max i.len (id' + 1)
          omega
      | lost => exact ⟨rfl, Nat.le_refl _⟩
      | torn =>
          have hlt : id < max i.len (id' + 1) := by omega
          refine ⟨?_, ?_⟩
          · simp [survive, frameAt, hlt, hlen, Function.update_of_ne (Ne.symm hne)]
          · change i.len ≤ max i.len (id' + 1)
            omega
  | resize len =>
      cases f with
      | kept => exact ⟨Image.frameAt_resize i hext, hext⟩
      | lost => exact ⟨rfl, Nat.le_refl _⟩
      | torn => exact ⟨Image.frameAt_resize i hext, hext⟩

/-- A page no unsynced write targets reads after the crash as it did when last synced, and the
file is not shorter, provided no resize shortens it. -/
theorem Image.frameAt_afterCrash {ws : List (Write α)} {id : Nat} :
    ∀ {i : Image α} (fs : List Fate), (∀ w ∈ ws, w.target ≠ some id) →
      ws.Pairwise (fun _ w => w.target ≠ none) →
      (∀ w ∈ ws, w.Extends i.len) → id < i.len →
      (i.afterCrash ws fs).frameAt id = i.frameAt id ∧ i.len ≤ (i.afterCrash ws fs).len := by
  induction ws with
  | nil =>
      intro i fs _ _ _ _
      exact ⟨by cases fs <;> rfl, by cases fs <;> exact Nat.le_refl _⟩
  | cons w ws ih =>
      intro i fs htarget hpages hext hlen
      cases fs with
      | nil => exact ⟨rfl, Nat.le_refl _⟩
      | cons f fs =>
          obtain ⟨hw, hle⟩ := Image.frameAt_survive (i := i) f (htarget w (List.mem_cons_self ..))
            (hext w (List.mem_cons_self ..)) hlen
          obtain ⟨hp, hps⟩ := List.pairwise_cons.mp hpages
          -- only the first write may be a resize, so the rest extend any file
          have hext' : ∀ w' ∈ ws, w'.Extends (i.survive w f).len := by
            intro w' hw'
            have hne := hp w' hw'
            cases w' with
            | page id' fr => trivial
            | resize len => exact absurd rfl hne
          obtain ⟨h₁, h₂⟩ := ih fs (fun w' hw' => htarget w' (List.mem_cons_of_mem _ hw')) hps
            hext' (Nat.lt_of_lt_of_le hlen hle)
          exact ⟨h₁.trans hw, Nat.le_trans hle h₂⟩

end Edb
