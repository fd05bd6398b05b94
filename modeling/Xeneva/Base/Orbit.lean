import Mathlib

/-!
# Loops that follow a link

A loop goes from a place to the one it links to until it comes to a place with a result. Where
the links lead into finitely many places, it finds a result or is trapped in a cycle.
-/

namespace Xeneva.Base

variable {α β : Type*} {f : α → α} {out : α → Option β} {stop : α → Prop} {a : α} {n : ℕ}

/-- `n` places at most. -/
def follow (f : α → α) (out : α → Option β) : ℕ → α → Option β
  | 0, _ => none
  | n + 1, a =>
    match out a with
    | some b => some b
    | none => follow f out n (f a)

/-- The links come back to a place, and there is no stop up to there. -/
def Trapped (f : α → α) (stop : α → Prop) (a : α) : Prop :=
  ∃ i k, i < k ∧ f^[i] a = f^[k] a ∧ ∀ j < k, ¬ stop (f^[j] a)

theorem follow_eq_none : follow f out n a = none ↔ ∀ k < n, out (f^[k] a) = none := by
  induction n generalizing a with
  | zero => exact ⟨fun _ k hk => absurd hk (Nat.not_lt_zero k), fun _ => rfl⟩
  | succ n ih =>
    rw [follow]
    cases ha : out a with
    | some b =>
      constructor
      · intro h
        cases h
      · intro h
        have h0 : out a = none := h 0 (Nat.zero_lt_succ n)
        rw [ha] at h0
        cases h0
    | none =>
      apply ih.trans
      constructor
      · intro h k hk
        cases k with
        | zero => exact ha
        | succ k => exact h k (Nat.lt_of_succ_lt_succ hk)
      · intro h k hk
        exact h (k + 1) (Nat.succ_lt_succ hk)

/-- In a cycle every later place is one of those before. -/
theorem iterate_of_cycle {i k : ℕ} (hik : i < k) (he : f^[i] a = f^[k] a) (m : ℕ) :
    ∃ j < k, f^[m] a = f^[j] a := by
  induction m with
  | zero => exact ⟨0, by omega, rfl⟩
  | succ m ih =>
    obtain ⟨j, hj, hm⟩ := ih
    rw [Function.iterate_succ_apply', hm, ← Function.iterate_succ_apply' f]
    rcases Nat.lt_or_ge (j + 1) k with h | h
    · exact ⟨j + 1, h, rfl⟩
    · have hk : j + 1 = k := by omega
      exact ⟨i, hik, by rw [he, ← hk]⟩

theorem Trapped.not_stop (h : Trapped f stop a) (m : ℕ) : ¬ stop (f^[m] a) := by
  obtain ⟨i, k, hik, he, hstop⟩ := h
  obtain ⟨j, hj, hm⟩ := iterate_of_cycle hik he m
  rw [hm]
  exact hstop j hj

/-- A loop in a cycle never ends. -/
theorem Trapped.follow (hout : ∀ a, (out a).isSome = true ↔ stop a) (h : Trapped f stop a)
    (n : ℕ) : follow f out n a = none := by
  apply follow_eq_none.mpr
  intro k _
  have hk := h.not_stop k
  rwa [← hout, Bool.not_eq_true, Option.isSome_eq_false_iff, Option.isNone_iff_eq_none] at hk

end Xeneva.Base
