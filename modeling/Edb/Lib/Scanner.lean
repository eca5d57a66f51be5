import Edb.Lib.Result

/-!
# Scanners

A scanner takes what it wants off the front of its input, or fails. `Scans r input a rest` says
that it reads `a` and leaves `rest`; a format comes back when what is written for a value is
scanned as that value whatever follows (`Returns`). Sequences of scanners are followed step by
step (`Scans.bind`), repetitions element by element (`many_returns`).
-/

namespace Edb.Lib

/-- Reading off the front of a string of `σ`. -/
abbrev Scanner (ε σ : Type) := StateT (List σ) (Except ε)

variable {ε ε' σ α β : Type}

/-- `r` reads `a` and leaves `rest`. -/
def Scans (r : Scanner ε σ α) (input : List σ) (a : α) (rest : List σ) : Prop :=
  r input = .ok (a, rest)

theorem Scans.ret (a : α) (input : List σ) : Scans (pure a : Scanner ε σ α) input a input := rfl

theorem Scans.bind {r : Scanner ε σ α} {k : α → Scanner ε σ β} {input mid rest : List σ} {a : α}
    {b : β} (hr : Scans r input a mid) (hk : Scans (k a) mid b rest) :
    Scans (r >>= k) input b rest := by
  have hrun : (r >>= k) input = (r input >>= fun p => k p.1 p.2) := rfl
  unfold Scans at hr hk ⊢
  rw [hrun, hr, Result.ok_bind, hk]

/-- What a sequence reads, its parts read one after the other. -/
theorem Scans.of_bind {r : Scanner ε σ α} {k : α → Scanner ε σ β} {input rest : List σ} {b : β}
    (h : Scans (r >>= k) input b rest) : ∃ a mid, Scans r input a mid ∧ Scans (k a) mid b rest := by
  have hrun : (r >>= k) input = (r input >>= fun p => k p.1 p.2) := rfl
  unfold Scans at h
  rw [hrun] at h
  obtain ⟨⟨a, mid⟩, hr, hk⟩ := Result.bind_eq_ok.1 h
  exact ⟨a, mid, hr, hk⟩

theorem Scans.of_ret {a b : α} {input rest : List σ}
    (h : Scans (pure a : Scanner ε σ α) input b rest) : b = a ∧ rest = input := by
  cases h
  exact ⟨rfl, rfl⟩

/-- What is written for `a` is read back as `a`, whatever follows. -/
def Returns (write : Except ε' (List σ)) (r : Scanner ε σ α) (a : α) : Prop :=
  ∀ out, write = .ok out → ∀ rest, Scans r (out ++ rest) a rest

/-- Read so many times. -/
def many (r : Scanner ε σ α) : Nat → Scanner ε σ (List α)
  | 0 => pure []
  | n + 1 => do
      let a ← r
      let as ← many r n
      pure (a :: as)

/-- Elements written one after the other come back. -/
theorem many_returns {write : α → Except ε' (List σ)} {writeAll : List α → Except ε' (List σ)}
    {r : Scanner ε σ α} (hnil : writeAll [] = .ok [])
    (hcons : ∀ a as, writeAll (a :: as) = (write a >>= fun head =>
      writeAll as >>= fun rest => .ok (head ++ rest)))
    {as : List α} (h : ∀ a ∈ as, Returns (write a) r a) :
    Returns (writeAll as) (many r as.length) as := by
  induction as with
  | nil =>
      intro out hout rest
      rw [hnil] at hout
      cases hout
      exact Scans.ret [] rest
  | cons a as ih =>
      intro out hout rest
      rw [hcons] at hout
      obtain ⟨head, hhead, hout⟩ := Result.bind_eq_ok.1 hout
      obtain ⟨tail, htail, hout⟩ := Result.bind_eq_ok.1 hout
      cases hout
      rw [List.append_assoc]
      refine Scans.bind (h a (List.mem_cons_self ..) head hhead (tail ++ rest)) ?_
      refine Scans.bind (ih (fun b hb => h b (List.mem_cons_of_mem _ hb)) tail htail rest) ?_
      exact Scans.ret (a :: as) rest

/-! ## Exact scanners -/

/-- Whatever `r` reads has the form `write` gives it, and is one of `P`. -/
def Exact (r : Scanner ε σ α) (write : α → List σ) (P : α → Prop) : Prop :=
  ∀ {input a rest}, Scans r input a rest → input = write a ++ rest ∧ P a

/-- Repetitions of an exact scanner read so many elements, one after the other. -/
theorem many_exact {r : Scanner ε σ α} {write : α → List σ} {P : α → Prop} (h : Exact r write P)
    (n : Nat) : Exact (many r n) (fun as => as.flatMap write)
      fun as => as.length = n ∧ ∀ a ∈ as, P a := by
  induction n with
  | zero =>
      intro input as rest hscan
      obtain ⟨rfl, rfl⟩ := hscan.of_ret
      simp
  | succ n ih =>
      intro input as rest hscan
      obtain ⟨a, mid, hread, hscan⟩ := Scans.of_bind hscan
      obtain ⟨as, mid', hreads, hscan⟩ := Scans.of_bind hscan
      obtain ⟨rfl, rfl⟩ := hscan.of_ret
      obtain ⟨rfl, ha⟩ := h hread
      obtain ⟨rfl, hlen, has⟩ := ih hreads
      refine ⟨?_, by rw [List.length_cons, hlen], ?_⟩
      · change _ = (a :: as).flatMap write ++ rest
        rw [List.flatMap_cons, List.append_assoc]
      · exact List.forall_mem_cons.2 ⟨ha, has⟩

end Edb.Lib
