import Mathlib

/-!
# Exchange sort

Every place of the list is compared with the places after it, and what is out of order is
swapped at once.
-/

namespace Xeneva.Base

variable {α β : Type*} [LinearOrder β] (key : α → β)

/-- The pass for one place: what stays there, and the places after it. -/
def exchangePass (cur : α) : List α → α × List α
  | [] => (cur, [])
  | idx :: rest =>
    if key idx < key cur then
      ((exchangePass idx rest).1, cur :: (exchangePass idx rest).2)
    else ((exchangePass cur rest).1, idx :: (exchangePass cur rest).2)

/-- The passes for the first `n` places. -/
def exchangeSteps : ℕ → List α → List α
  | 0, l => l
  | _, [] => []
  | n + 1, cur :: rest =>
    (exchangePass key cur rest).1 :: exchangeSteps n (exchangePass key cur rest).2

def exchangeSort (l : List α) : List α := exchangeSteps key l.length l

variable {key}

theorem exchangePass_perm (cur : α) (l : List α) :
    ((exchangePass key cur l).1 :: (exchangePass key cur l).2).Perm (cur :: l) := by
  induction l generalizing cur with
  | nil => exact List.Perm.refl _
  | cons idx rest ih =>
    unfold exchangePass
    split
    · have h := (ih idx).cons cur
      exact (List.Perm.swap _ _ _).trans h
    · have h := (ih cur).cons idx
      exact ((List.Perm.swap _ _ _).trans h).trans (List.Perm.swap _ _ _)

theorem exchangePass_length (cur : α) (l : List α) :
    (exchangePass key cur l).2.length = l.length := by
  have h : ((exchangePass key cur l).1 :: (exchangePass key cur l).2).length = (cur :: l).length :=
    (exchangePass_perm cur l).length_eq
  simpa using h

/-- The place gets a smallest one. -/
theorem exchangePass_le (cur : α) (l : List α) :
    key (exchangePass key cur l).1 ≤ key cur ∧
      ∀ a ∈ (exchangePass key cur l).2, key (exchangePass key cur l).1 ≤ key a := by
  induction l generalizing cur with
  | nil =>
    constructor
    · exact le_rfl
    · intro a ha
      exact absurd ha List.not_mem_nil
  | cons idx rest ih =>
    unfold exchangePass
    split
    case isTrue h =>
      have hle := (ih idx).1.trans h.le
      constructor
      · exact hle
      · intro a ha
        rcases List.mem_cons.mp ha with ha | ha
        · rw [ha]
          exact hle
        · exact (ih idx).2 a ha
    case isFalse h =>
      constructor
      · exact (ih cur).1
      · intro a ha
        rcases List.mem_cons.mp ha with ha | ha
        · rw [ha]
          exact (ih cur).1.trans (not_lt.mp h)
        · exact (ih cur).2 a ha

theorem exchangeSteps_perm (n : ℕ) (l : List α) : (exchangeSteps key n l).Perm l := by
  induction n generalizing l with
  | zero => exact List.Perm.refl l
  | succ n ih =>
    cases l with
    | nil => exact List.Perm.refl []
    | cons cur rest => exact ((ih _).cons _).trans (exchangePass_perm cur rest)

theorem exchangeSort_perm (l : List α) : (exchangeSort key l).Perm l :=
  exchangeSteps_perm l.length l

theorem exchangeSteps_sorted (n : ℕ) (l : List α) (h : l.length ≤ n) :
    (exchangeSteps key n l).Pairwise fun a b => key a ≤ key b := by
  induction n generalizing l with
  | zero =>
    rw [List.length_eq_zero_iff.mp (Nat.le_zero.mp h)]
    exact List.Pairwise.nil
  | succ n ih =>
    cases l with
    | nil => exact List.Pairwise.nil
    | cons cur rest =>
      apply List.Pairwise.cons
      · intro a ha
        exact (exchangePass_le cur rest).2 a ((exchangeSteps_perm n _).subset ha)
      · apply ih
        rw [exchangePass_length]
        exact Nat.le_of_succ_le_succ h

theorem exchangeSort_sorted (l : List α) :
    (exchangeSort key l).Pairwise fun a b => key a ≤ key b :=
  exchangeSteps_sorted l.length l le_rfl

end Xeneva.Base
