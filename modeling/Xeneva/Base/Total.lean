import Mathlib

/-!
# Totals of finitely many counts
-/

namespace Xeneva.Base

open Finset

variable {ι : Type*} {f g : ι → ℕ} {n : ℕ}

/-- Finitely many of the counts are not zero, and their sum is `n`. -/
def Total (f : ι → ℕ) (n : ℕ) : Prop :=
  ∃ s : Finset ι, (∀ i, i ∉ s → f i = 0) ∧ ∑ i ∈ s, f i = n

theorem Total.zero : Total (fun _ : ι => 0) 0 := ⟨∅, fun _ _ => rfl, rfl⟩

variable [DecidableEq ι]

/-- A total may be taken over a set with any given member. -/
theorem Total.over (h : Total f n) (i : ι) :
    ∃ s : Finset ι, i ∈ s ∧ (∀ j, j ∉ s → f j = 0) ∧ ∑ j ∈ s, f j = n := by
  obtain ⟨s, hs, hn⟩ := h
  refine ⟨insert i s, mem_insert_self i s, fun j hj => hs j fun h => hj (mem_insert_of_mem h), ?_⟩
  rw [← hn]
  symm
  apply sum_subset (subset_insert i s)
  intro j _ hj
  exact hs j hj

/-- When one count changes, the total changes by as much. -/
theorem Total.change (h : Total f n) (i : ι) (hg : ∀ j, j ≠ i → g j = f j) :
    ∃ m, Total g m ∧ m + f i = n + g i := by
  obtain ⟨s, hi, hs, hn⟩ := h.over i
  refine ⟨∑ j ∈ s, g j, ⟨s, ?_, rfl⟩, ?_⟩
  · intro j hj
    have hji : j ≠ i := fun h => hj (h ▸ hi)
    rw [hg j hji, hs j hj]
  · rw [← hn, ← add_sum_erase s g hi, ← add_sum_erase s f hi]
    have he : ∑ j ∈ s.erase i, g j = ∑ j ∈ s.erase i, f j := by
      apply sum_congr rfl
      intro j hj
      exact hg j (ne_of_mem_erase hj)
    omega

theorem Total.succ (h : Total f n) (i : ι) (hg : ∀ j, j ≠ i → g j = f j) (hi : g i = f i + 1) :
    Total g (n + 1) := by
  obtain ⟨m, hm, he⟩ := h.change i hg
  have hmn : m = n + 1 := by omega
  exact hmn ▸ hm

theorem Total.pred (h : Total f n) (i : ι) (hg : ∀ j, j ≠ i → g j = f j) (hi : f i = g i + 1) :
    Total g (n - 1) := by
  obtain ⟨m, hm, he⟩ := h.change i hg
  have hmn : m = n - 1 := by omega
  exact hmn ▸ hm

theorem Total.le (h : Total f n) (i : ι) : f i ≤ n := by
  obtain ⟨s, hi, -, hn⟩ := h.over i
  rw [← hn]
  exact single_le_sum (fun j _ => Nat.zero_le (f j)) hi

theorem Total.pos_iff (h : Total f n) : 0 < n ↔ ∃ i, f i ≠ 0 := by
  constructor
  · intro hn
    obtain ⟨s, -, hs⟩ := h
    by_contra hc
    have hz : ∑ i ∈ s, f i = 0 := sum_eq_zero fun i _ => by
      by_contra hi
      exact hc ⟨i, hi⟩
    omega
  · intro hi
    obtain ⟨i, hi⟩ := hi
    have := h.le i
    omega

end Xeneva.Base
