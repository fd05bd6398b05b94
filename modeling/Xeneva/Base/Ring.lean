import Mathlib

/-!
# A memory read as a ring

`window b max t n` are the `n` cells from place `t` on of a memory `b` used as a ring of
`max` cells. A copy that runs over the end goes on at place zero.
-/

namespace Xeneva.Base

variable {α : Type*} {b b' : ℕ → α} {max t n : ℕ}

/-- The `n` cells from `d` on. -/
def memread (b : ℕ → α) (d n : ℕ) : List α := (List.range n).map fun i => b (d + i)

def memcpy (b : ℕ → α) (d : ℕ) (src : List α) : ℕ → α :=
  fun i => if d ≤ i then (src[i - d]?).getD (b i) else b i

def window (b : ℕ → α) (max t n : ℕ) : List α :=
  (List.range n).map fun i => b ((t + i) % max)

@[simp] theorem memread_length (b : ℕ → α) (d n : ℕ) : (memread b d n).length = n := by
  simp [memread]

@[simp] theorem window_length (b : ℕ → α) (max t n : ℕ) : (window b max t n).length = n := by
  simp [window]

@[simp] theorem window_zero (b : ℕ → α) (max t : ℕ) : window b max t 0 = [] := rfl

theorem memcpy_get (b : ℕ → α) (d : ℕ) (src : List α) {j : ℕ} (hj : j < src.length) :
    memcpy b d src (d + j) = src[j] := by
  simp [memcpy, hj]

theorem memcpy_of_lt (b : ℕ → α) (src : List α) {d i : ℕ} (h : i < d) :
    memcpy b d src i = b i := by
  simp [memcpy, Nat.not_le_of_lt h]

theorem memcpy_of_ge (b : ℕ → α) (src : List α) {d i : ℕ} (h : d + src.length ≤ i) :
    memcpy b d src i = b i := by
  unfold memcpy
  rw [List.getElem?_eq_none (by omega)]
  split_ifs <;> rfl

/-- A place less than a full turn ahead. -/
theorem ring_place {i : ℕ} (ht : t < max) (hi : i ≤ max) :
    (t + i) % max = if t + i < max then t + i else t + i - max := by
  split_ifs with h
  · exact Nat.mod_eq_of_lt h
  · rw [Nat.mod_eq_sub_mod (by omega), Nat.mod_eq_of_lt (by omega)]

theorem window_add (b : ℕ → α) (max t n k : ℕ) :
    window b max t (n + k) = window b max t n ++ window b max ((t + n) % max) k := by
  simp [window, List.range_add, Nat.add_assoc]

theorem window_take {k : ℕ} (h : k ≤ n) : (window b max t n).take k = window b max t k := by
  obtain ⟨m, rfl⟩ := Nat.exists_eq_add_of_le h
  rw [window_add, List.take_left' (window_length ..)]

theorem window_drop {k : ℕ} (h : k ≤ n) :
    (window b max t n).drop k = window b max ((t + k) % max) (n - k) := by
  obtain ⟨m, rfl⟩ := Nat.exists_eq_add_of_le h
  rw [window_add, List.drop_left' (window_length ..), Nat.add_sub_cancel_left]

theorem window_congr (h : ∀ i < n, b ((t + i) % max) = b' ((t + i) % max)) :
    window b max t n = window b' max t n :=
  List.map_congr_left fun i hi => h i (List.mem_range.mp hi)

/-- A text copied to the start. -/
theorem window_memcpy (b : ℕ → α) {c : List α} (h : c.length ≤ max) :
    window (memcpy b 0 c) max 0 c.length = c := by
  refine List.ext_getElem (window_length ..) fun i hi hi' => ?_
  have hplace : (0 + i) % max = 0 + i := Nat.mod_eq_of_lt (by omega)
  simp only [window, List.getElem_map, List.getElem_range]
  rw [hplace, memcpy_get]

/-- Reading in two pieces. -/
theorem window_eq_memread (ht : t < max) (hn : n ≤ max) :
    window b max t n = if n > max - t then
      memread b t (max - t) ++ memread b 0 (n - (max - t)) else memread b t n := by
  split_ifs with h
  · obtain ⟨k, rfl⟩ := Nat.exists_eq_add_of_lt h
    have hturn : (t + (max - t)) % max = 0 := by
      rw [Nat.add_sub_cancel' (Nat.le_of_lt ht), Nat.mod_self]
    rw [Nat.add_assoc, window_add, hturn, Nat.add_sub_cancel_left]
    congr 1
    · exact List.map_congr_left fun i hi => by
        rw [Nat.mod_eq_of_lt]
        have := List.mem_range.mp hi
        omega
    · exact List.map_congr_left fun i hi => by
        rw [Nat.mod_eq_of_lt]
        have := List.mem_range.mp hi
        omega
  · exact List.map_congr_left fun i hi => by
      rw [Nat.mod_eq_of_lt]
      have := List.mem_range.mp hi
      omega

/-- Writing from place `h` on, in two pieces when the end is reached. -/
def ringWrite (b : ℕ → α) (max h : ℕ) (src : List α) : ℕ → α :=
  if src.length > max - h then
    memcpy (memcpy b h (src.take (max - h))) 0 (src.drop (max - h))
  else memcpy b h src

theorem ringWrite_get {h j : ℕ} {src : List α} (hh : h < max) (hs : src.length ≤ max)
    (hj : j < src.length) : ringWrite b max h src ((h + j) % max) = src[j] := by
  rw [ring_place hh (by omega)]
  unfold ringWrite
  split_ifs with hrun hlt hlt
  · rw [memcpy_of_ge _ _ (by simp; omega), memcpy_get _ _ _ (by simp; omega),
      List.getElem_take]
  · obtain ⟨k, hk⟩ := Nat.exists_eq_add_of_le (Nat.le_of_not_lt hlt)
    have hplace : h + j - max = 0 + k := by omega
    rw [hplace, memcpy_get _ _ _ (by simp; omega), List.getElem_drop]
    congr 1
    omega
  · exact memcpy_get _ _ _ hj
  · omega

theorem ringWrite_of_ne {h i : ℕ} {src : List α} (hh : h < max) (hi : i < max)
    (hne : ∀ j < src.length, (h + j) % max ≠ i) :
    ringWrite b max h src i = b i := by
  -- the distance from `h` to `i` around the ring is past the text
  have hfar : src.length ≤ (if h ≤ i then i - h else i + max - h) := by
    by_contra hlt
    refine hne _ (Nat.lt_of_not_le hlt) ?_
    rw [ring_place hh (by split_ifs <;> omega)]
    split_ifs <;> omega
  unfold ringWrite
  by_cases hle : h ≤ i
  · rw [if_pos hle] at hfar
    rw [if_neg (by omega), memcpy_of_ge _ _ (by omega)]
  · rw [if_neg hle] at hfar
    split_ifs
    · rw [memcpy_of_ge _ _ (by simp only [List.length_drop]; omega), memcpy_of_lt _ _ (by omega)]
    · rw [memcpy_of_lt _ _ (by omega)]

theorem ringWrite_behind {h i : ℕ} {src : List α} (hh : h < max) (hs : src.length ≤ max)
    (hi : max ≤ i) : ringWrite b max h src i = b i := by
  unfold ringWrite
  split_ifs
  · rw [memcpy_of_ge _ _ (by simp only [List.length_drop]; omega),
      memcpy_of_ge _ _ (by simp only [List.length_take]; omega)]
  · rw [memcpy_of_ge _ _ (by omega)]

theorem ringWrite_nil (b : ℕ → α) (max h : ℕ) : ringWrite b max h [] = b := by
  funext i
  have hi : memcpy b h [] i = b i := by
    unfold memcpy
    split_ifs <;> rfl
  unfold ringWrite
  rw [List.length_nil, if_neg (Nat.not_lt_zero _), hi]

/-- Writing one cell first. -/
theorem ringWrite_cons {h : ℕ} {x : α} {src : List α} (hh : h < max)
    (hs : src.length + 1 ≤ max) :
    ringWrite b max h (x :: src) =
      ringWrite (Function.update b h x) max ((h + 1) % max) src := by
  have hh' : (h + 1) % max < max := Nat.mod_lt _ (by omega)
  have hnext : ∀ j, ((h + 1) % max + j) % max = (h + (j + 1)) % max := by
    intro j
    rw [Nat.mod_add_mod, Nat.add_assoc, Nat.add_comm 1 j]
  have hlen : (x :: src).length ≤ max := hs
  funext i
  by_cases hi : max ≤ i
  · rw [ringWrite_behind hh hlen hi, ringWrite_behind hh' (by omega) hi,
      Function.update_of_ne (by omega)]
  · by_cases hat : ∃ j < src.length + 1, (h + j) % max = i
    · obtain ⟨j, hj, rfl⟩ := hat
      rw [ringWrite_get hh hlen hj]
      cases j with
      | zero =>
        have hplace : (h + 0) % max = h := Nat.mod_eq_of_lt hh
        rw [hplace, ringWrite_of_ne hh' hh, Function.update_self]
        · rfl
        · intro k hk hkh
          rw [hnext, ring_place hh (by omega)] at hkh
          split_ifs at hkh <;> omega
      | succ j =>
        rw [← hnext j, ringWrite_get hh' (by omega) (by omega)]
        rfl
    · rw [not_exists] at hat
      have hne : i ≠ h := by
        intro hih
        exact hat 0 ⟨Nat.succ_pos _, by rw [Nat.add_zero, Nat.mod_eq_of_lt hh, hih]⟩
      rw [ringWrite_of_ne hh (by omega) fun j hj hji =>
          hat j ⟨by rwa [List.length_cons] at hj, hji⟩,
        ringWrite_of_ne hh' (by omega), Function.update_of_ne hne]
      intro j hj hji
      rw [hnext] at hji
      exact hat (j + 1) ⟨by omega, hji⟩

/-- A text written behind the window joins it. -/
theorem window_ringWrite {src : List α} (ht : t < max) (hn : n + src.length ≤ max) :
    window (ringWrite b max ((t + n) % max) src) max t (n + src.length) =
      window b max t n ++ src := by
  have hh : (t + n) % max < max := Nat.mod_lt _ (by omega)
  rw [window_add]
  congr 1
  · refine window_congr fun i hi => ?_
    refine ringWrite_of_ne hh (Nat.mod_lt _ (by omega)) fun j hj heq => ?_
    rw [Nat.mod_add_mod, Nat.add_assoc, ring_place ht (by omega),
      ring_place ht (by omega)] at heq
    split_ifs at heq <;> omega
  · refine List.ext_getElem (window_length ..) fun j hj hj' => ?_
    rw [← ringWrite_get (b := b) hh (by omega) hj']
    simp [window]

/-- One cell is written behind the window. -/
theorem window_push {x : α} (ht : t < max) (hn : n < max) :
    window (Function.update b ((t + n) % max) x) max t (n + 1) = window b max t n ++ [x] := by
  have hh : (t + n) % max < max := Nat.mod_lt _ (by omega)
  rw [← window_ringWrite ht (show n + [x].length ≤ max from hn),
    ringWrite_cons hh (show ([] : List α).length + 1 ≤ max from by
      rw [List.length_nil]
      omega), ringWrite_nil]
  rfl

/-- The first cell of a window. -/
theorem window_pop (ht : t < max) :
    window b max t (n + 1) = b t :: window b max ((t + 1) % max) n := by
  rw [Nat.add_comm n 1, window_add]
  unfold window
  rw [List.range_one, List.map_singleton, Nat.add_zero, Nat.mod_eq_of_lt ht]
  rfl

end Xeneva.Base
