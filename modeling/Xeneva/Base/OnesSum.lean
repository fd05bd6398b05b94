import Mathlib

/-!
# One's-complement sums

The checksum of RFC 1071: the complement of the sum of a message's 16-bit words, where carries go
around.
-/

namespace Xeneva.Base.OnesSum

abbrev Byte := BitVec 8

/-- The words of a message, high bytes first; an odd byte at the end is padded with `0`. -/
def words : List Byte → List ℕ
  | [] => []
  | [a] => [a.toNat * 256]
  | a :: b :: l => (a.toNat * 256 + b.toNat) :: words l

/-- The sum of two words, with the carry going around. -/
def add (a b : ℕ) : ℕ := if a + b < 65536 then a + b else a + b - 65535

def sum (l : List ℕ) : ℕ := l.foldl add 0

/-- The carries of a plain sum, added until there are none. -/
def fold (n : ℕ) : ℕ := if n < 65536 then n else fold (n / 65536 + n % 65536)
termination_by n
decreasing_by omega

def checksum (m : List Byte) : ℕ := 65535 - fold (words m).sum

/-- The word that a number is modulo `65535`: only `0` is `0`. -/
def residue (n : ℕ) : ℕ := if n = 0 then 0 else (n - 1) % 65535 + 1

theorem residue_of_lt {n : ℕ} (h : n < 65536) : residue n = n := by
  unfold residue
  split <;> omega

theorem residue_lt (n : ℕ) : residue n < 65536 := by
  unfold residue
  split <;> omega

theorem residue_carry {n : ℕ} (h : 65536 ≤ n) : residue (n / 65536 + n % 65536) = residue n := by
  unfold residue
  rw [if_neg (by omega), if_neg (by omega)]
  omega

theorem add_residue {n w : ℕ} (hw : w < 65536) : add (residue n) w = residue (n + w) := by
  unfold add residue
  by_cases hn : n = 0
  · subst hn
    by_cases hz : w = 0
    · simp [hz]
    · simp only [if_true, Nat.zero_add, hw, if_neg hz]
      omega
  · rw [if_neg hn, if_neg (by omega : ¬n + w = 0)]
    split <;> omega

theorem fold_eq (n : ℕ) : fold n = residue n := by
  induction n using fold.induct with
  | case1 n h => rw [fold, if_pos h, residue_of_lt h]
  | case2 n h ih => rw [fold, if_neg h, ih, residue_carry (by omega)]

theorem foldl_add {l : List ℕ} (h : ∀ w ∈ l, w < 65536) (n : ℕ) :
    l.foldl add (residue n) = residue (n + l.sum) := by
  induction l generalizing n with
  | nil => rfl
  | cons w l ih =>
    rw [List.foldl_cons, add_residue (h w List.mem_cons_self), List.sum_cons, ← Nat.add_assoc]
    exact ih (fun v hv => h v (List.mem_cons_of_mem _ hv)) _

theorem sum_eq_residue {l : List ℕ} (h : ∀ w ∈ l, w < 65536) : sum l = residue l.sum := by
  have hfold := foldl_add h 0
  rwa [Nat.zero_add] at hfold

theorem words_lt (m : List Byte) : ∀ w ∈ words m, w < 65536 := by
  induction m using words.induct with
  | case1 => simp [words]
  | case2 a =>
    intro w hw
    have ha := a.isLt
    rw [words, List.mem_singleton] at hw
    omega
  | case3 a b l ih =>
    intro w hw
    have ha := a.isLt
    have hb := b.isLt
    rw [words, List.mem_cons] at hw
    rcases hw with rfl | hw
    · omega
    · exact ih w hw

theorem words_append (m m' : List Byte) (h : m.length % 2 = 0) :
    words (m ++ m') = words m ++ words m' := by
  induction m using words.induct with
  | case1 => rfl
  | case2 a => exact absurd h (by simp)
  | case3 a b l ih =>
    have hl : l.length % 2 = 0 := by
      rw [List.length_cons, List.length_cons] at h
      omega
    rw [List.cons_append, List.cons_append, words, words, ih hl, List.cons_append]

theorem words_get (m : List Byte) {i : ℕ} (h : 2 * i + 1 < m.length) :
    (words m)[i]? = some ((m.getD (2 * i) 0).toNat * 256 + (m.getD (2 * i + 1) 0).toNat) := by
  induction m using words.induct generalizing i with
  | case1 => exact absurd h (by simp)
  | case2 a =>
    rw [List.length_singleton] at h
    omega
  | case3 a b l ih =>
    cases i with
    | zero => rfl
    | succ i =>
      rw [List.length_cons, List.length_cons] at h
      rw [words, List.getElem?_cons_succ, ih (by omega)]
      rfl

/-- The pairs of bytes of a message, and the byte that an odd one ends in. -/
theorem words_sum (m : List Byte) : (words m).sum = ((words m).take (m.length / 2)).sum +
    if m.length % 2 = 1 then (m.getD (m.length - 1) 0).toNat * 256 else 0 := by
  induction m using words.induct with
  | case1 => rfl
  | case2 a => simp [words]
  | case3 a b l ih =>
    have hhalf : (l.length + 1 + 1) / 2 = l.length / 2 + 1 := by omega
    have hodd : (l.length + 1 + 1) % 2 = l.length % 2 := by omega
    have hlast : l.length % 2 = 1 →
        (a :: b :: l).getD (l.length + 1 + 1 - 1) 0 = l.getD (l.length - 1) 0 := by
      intro h
      obtain ⟨n, hn⟩ : ∃ n, l.length = n + 1 := ⟨l.length - 1, by omega⟩
      rw [hn]
      rfl
    rw [words, List.length_cons, List.length_cons, hhalf, hodd, List.take_succ_cons, List.sum_cons,
      List.sum_cons, ih]
    split <;> rename_i h
    · rw [hlast h]
      omega
    · omega

theorem checksum_lt (m : List Byte) : checksum m < 65536 := by
  unfold checksum
  omega

/-- A message that carries its checksum sums to all ones. -/
theorem sum_checksum {m m' : List Byte} (h : (words m').sum = (words m).sum + checksum m) :
    sum (words m') = 65535 := by
  rw [sum_eq_residue (words_lt m'), h, checksum, fold_eq]
  unfold residue
  by_cases hz : (words m).sum = 0
  · simp [hz]
  · rw [if_neg hz, if_neg (by omega)]
    omega

end Xeneva.Base.OnesSum
