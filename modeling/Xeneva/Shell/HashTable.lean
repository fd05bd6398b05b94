import Mathlib

/-!
# The shell's tables

Open addressing over a fixed number of slots, each headed by its hash and a mark of use. A deletion
shifts later slots back, so that no probe stops too early.
-/

namespace Xeneva.Shell

open Finset Function

/-- A slot begins with the header `HHdr`. -/
structure Slot (β : Type) where
  h : UInt32
  used : Bool
  val : β

abbrev Slots (N : ℕ) (β : Type) := Fin N → Slot β

variable {N : ℕ} [NeZero N] {β : Type} {t : Slots N β} {P : Slot β → Prop}

def Slot.clear (s : Slot β) : Slot β := { s with used := false }

@[simp] theorem Slot.clear_used (s : Slot β) : s.clear.used = false := rfl

/-- The slot that a hash is looked for first. -/
def home (N : ℕ) [NeZero N] (h : UInt32) : Fin N := Fin.ofNat N h.toNat

/-- A slot at `j` whose home is `k` may stay there when `i` becomes free. -/
def stays (i j k : Fin N) : Bool :=
  if i ≤ j then i < k && k ≤ j else i < k || k ≤ j

/-- The loops of `HDel`: `i` is free, and `j` is the last slot that was looked at. -/
def shiftBack : ℕ → Slots N β → Fin N → Fin N → Slots N β
  | 0, t, _, _ => t
  | n + 1, t, i, j =>
    let j := j + 1
    if !(t j).used then t
    else if stays i j (home N (t j).h) then shiftBack n t i j
    else shiftBack n (update (update t i (t j)) j (t j).clear) j j

def hDel (t : Slots N β) (i : Fin N) : Slots N β :=
  shiftBack N (update t i (t i).clear) i i

/-- The slot that is `a` behind `s`, around the end of the table. -/
def behind (s : Fin N) (a : ℕ) : Fin N := Fin.ofNat N (s.val + a)

@[simp] theorem behind_zero (s : Fin N) : behind s 0 = s := by
  apply Fin.ext
  simp [behind, Fin.ofNat, Nat.mod_eq_of_lt s.isLt]

theorem behind_succ (s : Fin N) (a : ℕ) : behind s (a + 1) = behind s a + 1 := by
  apply Fin.ext
  rw [Fin.val_add]
  change (s.val + (a + 1)) % N = ((s.val + a) % N + 1 % N) % N
  rw [← Nat.add_mod, Nat.add_assoc]

theorem behind_val (s : Fin N) (a : ℕ) : (behind s a).val = (s.val + a) % N := rfl

theorem behind_ne {s : Fin N} {a c : ℕ} (hac : a < c) (hc : c < N) : behind s a ≠ behind s c := by
  intro h
  have hv : (s.val + a) % N = (s.val + c) % N := congrArg Fin.val h
  have hd : N ∣ c - a := by
    have hsub := Nat.sub_mod_eq_zero_of_mod_eq hv.symm
    rw [Nat.add_sub_add_left] at hsub
    exact Nat.dvd_of_mod_eq_zero hsub
  have hle := Nat.le_of_dvd (by omega) hd
  omega

/-- Past the end of the table, what is further behind is still in front of `s`. -/
theorem behind_lt {s : Fin N} {a b : ℕ} (hab : a ≤ b) (hb : b < N) (ha : behind s a < s) :
    behind s b < s := by
  have hs := s.isLt
  have ha' : (s.val + a) % N < s.val := ha
  have hwrap : N ≤ s.val + a := by
    by_contra hlt
    rw [Nat.mod_eq_of_lt (by omega)] at ha'
    omega
  have hmod : (s.val + b) % N = s.val + b - N := by
    rw [Nat.mod_eq_sub_mod (by omega), Nat.mod_eq_of_lt (by omega)]
  change (s.val + b) % N < s.val
  omega

/-- Every slot is some way behind any other. -/
theorem exists_behind (s k : Fin N) : ∃ c < N, behind s c = k := by
  have hs := s.isLt
  have hk := k.isLt
  by_cases h : s.val ≤ k.val
  · refine ⟨k.val - s.val, by omega, Fin.ext ?_⟩
    rw [behind_val, Nat.add_sub_cancel' h, Nat.mod_eq_of_lt hk]
  · refine ⟨N + k.val - s.val, by omega, Fin.ext ?_⟩
    rw [behind_val, show s.val + (N + k.val - s.val) = k.val + N by omega, Nat.add_mod_right,
      Nat.mod_eq_of_lt hk]

/-! ### What a deletion keeps -/

omit [NeZero N] in
theorem update_forall (h : ∀ k, P (t k)) (i : Fin N) {x : Slot β} (hx : P x) (k : Fin N) :
    P (update t i x k) := by
  by_cases hk : k = i
  · rw [hk, update_self]
    exact hx
  · rw [update_of_ne hk]
    exact h k

/-- A slot after a shift was one before it, or is free. -/
theorem shiftBack_forall (hfree : ∀ s : Slot β, s.used = false → P s) (n : ℕ) :
    ∀ (t : Slots N β) (i j : Fin N), (∀ k, P (t k)) → ∀ k, P (shiftBack n t i j k) := by
  induction n with
  | zero => exact fun t i j h => h
  | succ n ih =>
    intro t i j h
    simp only [shiftBack]
    split
    · exact h
    · split
      · exact ih t i _ h
      · apply ih
        exact update_forall (update_forall h i (h _)) _ (hfree _ rfl)

theorem hDel_forall (hfree : ∀ s : Slot β, s.used = false → P s) (h : ∀ k, P (t k)) (i : Fin N) :
    ∀ k, P (hDel t i k) :=
  shiftBack_forall hfree N _ i i (update_forall h i (hfree _ rfl))

/-- A deletion at `s` leaves no slot in front of `s` that was not there, when some slot is free: the
scan stops before it is back at `s`. -/
theorem shiftBack_front (hfree : ∀ s : Slot β, s.used = false → P s) (s : Fin N) {c : ℕ}
    (hc : c < N) (n : ℕ) :
    ∀ (t : Slots N β) (a b : ℕ), a ≤ b → b < c → (t (behind s c)).used = false →
      (∀ k < s, P (t k)) → ∀ k < s, P (shiftBack n t (behind s a) (behind s b) k) := by
  induction n with
  | zero => exact fun t a b _ _ _ h => h
  | succ n ih =>
    intro t a b hab hbc hu h
    simp only [shiftBack, ← behind_succ]
    by_cases hj : (t (behind s (b + 1))).used = false
    · simpa [hj] using h
    · have hne : b + 1 ≠ c := fun he => hj (he ▸ hu)
      have hbc' : b + 1 < c := by omega
      have hj' : (!(t (behind s (b + 1))).used) = false := by simpa using hj
      rw [hj', if_neg Bool.false_ne_true]
      split
      · exact ih t a (b + 1) (by omega) hbc' hu h
      · apply ih _ (b + 1) (b + 1) le_rfl hbc'
        · rw [update_of_ne (behind_ne hbc' hc).symm,
            update_of_ne (behind_ne (by omega) hc).symm]
          exact hu
        · intro k hk
          by_cases hkj : k = behind s (b + 1)
          · rw [hkj, update_self]
            exact hfree _ rfl
          · rw [update_of_ne hkj]
            by_cases hki : k = behind s a
            · rw [hki, update_self]
              exact h _ (behind_lt (by omega) (by omega) (hki ▸ hk))
            · rw [update_of_ne hki]
              exact h k hk

theorem hDel_front (hfree : ∀ s : Slot β, s.used = false → P s) {s u : Fin N} (hus : u ≠ s)
    (hu : (t u).used = false) (h : ∀ k < s, P (t k)) : ∀ k < s, P (hDel t s k) := by
  obtain ⟨c, hc, rfl⟩ := exists_behind s u
  have hpos : 0 < c := by
    apply Nat.pos_of_ne_zero
    intro h0
    exact hus (by rw [h0, behind_zero])
  have hfront := shiftBack_front hfree s hc N (update t s (t s).clear) 0 0 le_rfl hpos
    (by rwa [update_of_ne hus]) (fun k hk => by rw [update_of_ne hk.ne]; exact h k hk)
  rw [behind_zero] at hfront
  exact hfront

/-! ### How many slots are used -/

def usedCount (t : Slots N β) : ℕ := ∑ k, if (t k).used then 1 else 0

omit [NeZero N] in
theorem usedCount_update (t : Slots N β) (i : Fin N) (x : Slot β) :
    usedCount (update t i x) + (if (t i).used then 1 else 0) =
      usedCount t + (if x.used then 1 else 0) := by
  have hrest : ∑ k ∈ univ.erase i, (if (update t i x k).used then 1 else 0) =
      ∑ k ∈ univ.erase i, if (t k).used then 1 else 0 := by
    apply sum_congr rfl
    intro k hk
    rw [update_of_ne (ne_of_mem_erase hk)]
  unfold usedCount
  rw [← add_sum_erase univ _ (mem_univ i), ← add_sum_erase univ (fun k => if (t k).used then 1 else 0)
    (mem_univ i), hrest, update_self]
  omega

theorem usedCount_shiftBack (n : ℕ) : ∀ (t : Slots N β) (i j : Fin N), (t i).used = false →
    usedCount (shiftBack n t i j) = usedCount t := by
  induction n with
  | zero => exact fun t i j _ => rfl
  | succ n ih =>
    intro t i j hi
    simp only [shiftBack]
    split
    · rfl
    · rename_i hj
      split
      · exact ih t i _ hi
      · have hij : j + 1 ≠ i := by
          intro he
          rw [he, hi] at hj
          simp at hj
        rw [ih _ _ _ (by rw [update_self]; rfl)]
        have h₁ := usedCount_update (update t i (t (j + 1))) (j + 1) (t (j + 1)).clear
        have h₂ := usedCount_update t i (t (j + 1))
        rw [update_of_ne hij] at h₁
        simp only [hi, Slot.clear_used, Bool.false_eq_true, if_false] at h₁ h₂
        omega

theorem usedCount_hDel {i : Fin N} (hi : (t i).used = true) :
    usedCount (hDel t i) + 1 = usedCount t := by
  unfold hDel
  rw [usedCount_shiftBack N _ i i (by rw [update_self]; rfl)]
  have h := usedCount_update t i (t i).clear
  simp only [hi, Slot.clear_used, if_true, Bool.false_eq_true, if_false] at h
  omega

omit [NeZero N] in
/-- A table that is not full has a free slot. -/
theorem exists_free (h : usedCount t < N) : ∃ u, (t u).used = false := by
  by_contra hall
  push Not at hall
  have hfull : usedCount t = N := by
    unfold usedCount
    rw [sum_congr rfl fun k _ => if_pos (by simpa using hall k)]
    simp
  omega

/-! ### Probing and purging -/

/-- The first slot from `i` on that is free. -/
def firstFree : ℕ → Slots N β → Fin N → Fin N
  | 0, _, i => i
  | n + 1, t, i => if (t i).used then firstFree n t (i + 1) else i

theorem firstFree_used {s : Fin N} {c : ℕ} (hu : (t (behind s c)).used = false) (n : ℕ) :
    ∀ b, b ≤ c → c < b + n → (t (firstFree n t (behind s b))).used = false := by
  induction n with
  | zero =>
    intro b hbc hcb
    omega
  | succ n ih =>
    intro b hbc hcb
    simp only [firstFree]
    split
    · rename_i hb
      have hne : b ≠ c := by
        intro he
        rw [he, hu] at hb
        simp at hb
      rw [← behind_succ]
      exact ih (b + 1) (by omega) (by omega)
    · rename_i hb
      simpa using hb

/-- In a table that is not full, a probe finds a free slot. -/
theorem firstFree_free (h : usedCount t < N) (i : Fin N) :
    (t (firstFree N t i)).used = false := by
  obtain ⟨u, hu⟩ := exists_free h
  obtain ⟨c, hc, rfl⟩ := exists_behind i u
  have hfree := firstFree_used hu N 0 (Nat.zero_le c) (by omega)
  rwa [behind_zero] at hfree

/-- The slot with a hash and a value of `p`, from `i` on and before the first free one. -/
def probe (p : β → Bool) (h : UInt32) : ℕ → Slots N β → Fin N → Option (Fin N)
  | 0, _, _ => none
  | n + 1, t, i =>
    if !(t i).used then none
    else if (t i).h = h && p (t i).val then some i
    else probe p h n t (i + 1)

theorem probe_used {p : β → Bool} {h : UInt32} {k : Fin N} (n : ℕ) :
    ∀ i, probe p h n t i = some k → (t k).used = true := by
  induction n with
  | zero =>
    intro i hk
    simp [probe] at hk
  | succ n ih =>
    intro i hk
    simp only [probe] at hk
    split at hk
    · simp at hk
    · rename_i hi
      split at hk
      · rw [← Option.some.inj hk]
        simpa using hi
      · exact ih (i + 1) hk

/-- The loop of `FuncPurge`: deletes every used slot of `p` from slot `i` on, and counts them off. -/
def purgeFrom (p : β → Bool) : ℕ → Slots N β × ℕ → ℕ → Slots N β × ℕ
  | 0, t, _ => t
  | n + 1, t, i =>
    if h : i < N then
      if (t.1 ⟨i, h⟩).used && p (t.1 ⟨i, h⟩).val then purgeFrom p n (hDel t.1 ⟨i, h⟩, t.2 - 1) i
      else purgeFrom p n t (i + 1)
    else t

theorem purgeFrom_forall {p : β → Bool} (hfree : ∀ s : Slot β, s.used = false → P s) (n : ℕ) :
    ∀ (t : Slots N β × ℕ) (i : ℕ), (∀ k, P (t.1 k)) → ∀ k, P ((purgeFrom p n t i).1 k) := by
  induction n with
  | zero => exact fun t i h => h
  | succ n ih =>
    intro t i h
    simp only [purgeFrom]
    split
    · split
      · exact ih _ i (hDel_forall hfree h _)
      · exact ih t (i + 1) h
    · exact h

theorem purgeFrom_count {p : β → Bool} (n : ℕ) :
    ∀ (t : Slots N β × ℕ) (i : ℕ), t.2 = usedCount t.1 →
      (purgeFrom p n t i).2 = usedCount (purgeFrom p n t i).1 ∧ (purgeFrom p n t i).2 ≤ t.2 := by
  induction n with
  | zero => exact fun t i h => ⟨h, le_rfl⟩
  | succ n ih =>
    intro t i h
    simp only [purgeFrom]
    split
    · split
      · rename_i hused
        have hdel := usedCount_hDel (Bool.and_eq_true_iff.mp hused).1
        obtain ⟨heq, hle⟩ := ih (hDel t.1 ⟨i, by assumption⟩, t.2 - 1) i
          (by change t.2 - 1 = usedCount (hDel t.1 _); omega)
        exact ⟨heq, le_trans hle (Nat.sub_le _ _)⟩
      · exact ih t (i + 1) h
    · exact ⟨h, le_rfl⟩

/-- No slot of `p` is left, though each deletion shifts slots: those that it shifts over the scan's
place come from where the scan has been. -/
theorem purgeFrom_clean {p : β → Bool} (n : ℕ) :
    ∀ (t : Slots N β × ℕ) (i : ℕ), usedCount t.1 < N → usedCount t.1 + (N - i) ≤ n →
      (∀ k : Fin N, k.val < i → (t.1 k).used = true → p (t.1 k).val = false) →
      ∀ k, ((purgeFrom p n t i).1 k).used = true → p ((purgeFrom p n t i).1 k).val = false := by
  induction n with
  | zero =>
    intro t i _ hn h k
    exact h k (by have := k.isLt; omega)
  | succ n ih =>
    intro t i hlt hn h
    simp only [purgeFrom]
    split
    · rename_i hi
      split
      · rename_i hp
        obtain ⟨hused, hown⟩ := Bool.and_eq_true_iff.mp hp
        have hdel := usedCount_hDel hused
        obtain ⟨u, hu⟩ := exists_free hlt
        have hus : u ≠ ⟨i, hi⟩ := by
          intro he
          rw [he, hused] at hu
          simp at hu
        apply ih _ i (show usedCount (hDel t.1 _) < N by omega)
          (show usedCount (hDel t.1 _) + _ ≤ n by omega)
        intro k hk
        exact hDel_front (P := fun s => s.used = true → p s.val = false)
          (fun s hs hs' => absurd (hs.symm.trans hs') (by simp)) hus hu (fun k hk => h k hk) k hk
      · rename_i hp
        apply ih t (i + 1) hlt (by omega)
        intro k hk hku
        by_cases hki : k.val = i
        · have hke : k = ⟨i, hi⟩ := Fin.ext hki
          rw [hke] at hku ⊢
          simpa [hku] using hp
        · exact h k (by omega) hku
    · intro k
      exact h k (by have := k.isLt; omega)

end Xeneva.Shell
