import Mathlib

/-!
# Serial numbers

Numbers that count modulo a power of two, and how far one is ahead of another. As long as
the distances stay below half of the range, the signed differences of a machine order them.
-/

namespace Xeneva.Base

variable {w : ℕ} {a b c : BitVec w}

/-- How far `b` is ahead of `a`. -/
def ahead (a b : BitVec w) : ℕ := (b - a).toNat

@[simp] theorem ahead_self (a : BitVec w) : ahead a a = 0 := by
  simp [ahead]

theorem ahead_lt (a b : BitVec w) : ahead a b < 2 ^ w := (b - a).isLt

theorem ahead_eq_zero (h : ahead a b = 0) : b = a := by
  have hz : b - a = 0#w := BitVec.eq_of_toNat_eq (by simpa [ahead] using h)
  exact BitVec.sub_eq_iff_eq_add.mp hz |>.trans (BitVec.zero_add a)

/-- Distances that do not go all the way round add up. -/
theorem ahead_add (h : ahead a b + ahead b c < 2 ^ w) : ahead a c = ahead a b + ahead b c := by
  have hsum : c - a = (b - a) + (c - b) := (sub_add_sub_cancel' b a c).symm
  unfold ahead at h ⊢
  rw [hsum, BitVec.toNat_add, Nat.mod_eq_of_lt h]

/-- Counting on moves the number ahead. -/
theorem ahead_add_right (a b k : BitVec w) (h : ahead a b + k.toNat < 2 ^ w) :
    ahead a (b + k) = ahead a b + k.toNat := by
  have hk : ahead b (b + k) = k.toNat := by
    unfold ahead
    rw [BitVec.add_comm, BitVec.add_sub_cancel]
  rw [← hk] at h ⊢
  exact ahead_add h

/-- The signed difference is not negative below half of the range. -/
theorem toInt_sub_nonneg (hw : 0 < w) : 0 ≤ (b - a).toInt ↔ ahead a b < 2 ^ (w - 1) := by
  have hhalf : 2 ^ w = 2 * 2 ^ (w - 1) := by
    rw [← Nat.pow_succ', Nat.succ_eq_add_one, Nat.sub_add_cancel hw]
  have hlt := ahead_lt a b
  unfold ahead at hlt ⊢
  rw [BitVec.toInt_eq_toNat_cond]
  split_ifs with hc
  · omega
  · omega

theorem toInt_sub_pos (hw : 0 < w) :
    0 < (b - a).toInt ↔ 0 < ahead a b ∧ ahead a b < 2 ^ (w - 1) := by
  have hhalf : 2 ^ w = 2 * 2 ^ (w - 1) := by
    rw [← Nat.pow_succ', Nat.succ_eq_add_one, Nat.sub_add_cancel hw]
  have hlt := ahead_lt a b
  unfold ahead at hlt ⊢
  rw [BitVec.toInt_eq_toNat_cond]
  split_ifs with hc
  · omega
  · omega

/-- The test a receiver of acknowledgements makes: `b` lies after `a` and not after `c`. -/
theorem ahead_of_between (hw : 0 < w) (h₁ : 0 < (b - a).toInt) (h₂ : 0 ≤ (c - b).toInt) :
    ahead a c = ahead a b + ahead b c := by
  have hb := ((toInt_sub_pos hw).mp h₁).2
  have hc := (toInt_sub_nonneg hw).mp h₂
  have hhalf : 2 ^ w = 2 * 2 ^ (w - 1) := by
    rw [← Nat.pow_succ', Nat.succ_eq_add_one, Nat.sub_add_cancel hw]
  exact ahead_add (by omega)

end Xeneva.Base

/-!
# A queue of slots

Two counters that run freely modulo a power of two, and a power of two of slots between them. The
slot of a counter is its remainder, which a wrap of the counter does not disturb.
-/

namespace Xeneva.Base

variable {α : Type*} {w N : ℕ} {slots slots' : ℕ → α} {tail head : BitVec w} {x : α}

/-- What lies from `tail` up to `head`. -/
def slotQueue (slots : ℕ → α) (N : ℕ) (tail head : BitVec w) : List α :=
  (List.range (ahead tail head)).map fun i => slots ((tail.toNat + i) % N)

@[simp] theorem slotQueue_self (slots : ℕ → α) (N : ℕ) (tail : BitVec w) :
    slotQueue slots N tail tail = [] := by
  simp [slotQueue]

/-- The slot of a counter is as far ahead as the counter. -/
theorem slot_ahead (hN : N ∣ 2 ^ w) (tail head : BitVec w) :
    (tail.toNat + ahead tail head) % N = head.toNat % N := by
  have hhead : (tail.toNat + ahead tail head) % 2 ^ w = head.toNat := by
    have hsum := BitVec.toNat_add tail (head - tail)
    rw [BitVec.add_comm, BitVec.sub_add_cancel] at hsum
    exact hsum.symm
  rw [← hhead, Nat.mod_mod_of_dvd _ hN]

theorem toNat_one_of_lt (hw : 1 < 2 ^ w) : (1#w).toNat = 1 := by
  rw [BitVec.toNat_ofNat]
  exact Nat.mod_eq_of_lt hw

theorem ahead_succ (hw : 1 < 2 ^ w) (h : ahead tail head + 1 < 2 ^ w) :
    ahead tail (head + 1#w) = ahead tail head + 1 := by
  have hadd := ahead_add_right tail head 1#w (by rwa [toNat_one_of_lt hw])
  rwa [toNat_one_of_lt hw] at hadd

theorem ahead_pred (hw : 1 < 2 ^ w) (h : tail ≠ head) :
    ahead tail head = ahead (tail + 1#w) head + 1 := by
  have hpos : 0 < ahead tail head :=
    Nat.pos_of_ne_zero fun h0 => h (ahead_eq_zero h0).symm
  have hsub : head - (tail + 1#w) = head - tail - 1#w := by
    rw [sub_add_eq_sub_sub]
  unfold ahead at hpos ⊢
  have hle : 1#w ≤ head - tail := by
    rw [BitVec.le_def, toNat_one_of_lt hw]
    exact hpos
  rw [hsub, BitVec.toNat_sub_of_le hle, toNat_one_of_lt hw]
  omega

/-- Slots that are not in the queue do not matter. -/
theorem slotQueue_congr (h : ∀ i < ahead tail head, slots ((tail.toNat + i) % N) =
    slots' ((tail.toNat + i) % N)) : slotQueue slots N tail head = slotQueue slots' N tail head :=
  List.map_congr_left fun i hi => h i (List.mem_range.mp hi)

/-- Filling the slot behind the queue leaves the queue alone. -/
theorem slotQueue_fill (hN : N ∣ 2 ^ w) (hfree : ahead tail head < N) (slots : ℕ → α) (x : α) :
    slotQueue (Function.update slots (head.toNat % N) x) N tail head = slotQueue slots N tail head := by
  apply slotQueue_congr
  intro i hi
  apply Function.update_of_ne
  rw [← slot_ahead hN tail head]
  intro he
  have hmod : i % N = ahead tail head % N := Nat.ModEq.add_left_cancel' tail.toNat he
  rw [Nat.mod_eq_of_lt (by omega), Nat.mod_eq_of_lt hfree] at hmod
  omega

/-- A slot that is filled behind the queue joins it. -/
theorem slotQueue_push (hw : 1 < 2 ^ w) (hN : N ∣ 2 ^ w) (hfree : ahead tail head < N)
    (hroom : ahead tail head + 1 < 2 ^ w) (slots : ℕ → α) (x : α) :
    slotQueue (Function.update slots (head.toNat % N) x) N tail (head + 1#w) =
      slotQueue slots N tail head ++ [x] := by
  have hslot := slot_ahead hN tail head
  unfold slotQueue
  rw [ahead_succ hw hroom, List.range_succ, List.map_append, List.map_singleton, hslot,
    Function.update_self]
  congr 1
  exact slotQueue_fill hN hfree slots x

/-- The slot at `tail` is first. -/
theorem slotQueue_pop (hw : 1 < 2 ^ w) (hN : N ∣ 2 ^ w) (h : tail ≠ head) (slots : ℕ → α) :
    slotQueue slots N tail head =
      slots (tail.toNat % N) :: slotQueue slots N (tail + 1#w) head := by
  have hnext : (tail + 1#w).toNat % N = (tail.toNat + 1) % N := by
    rw [BitVec.toNat_add, toNat_one_of_lt hw, Nat.mod_mod_of_dvd _ hN]
  unfold slotQueue
  rw [ahead_pred hw h, List.range_succ_eq_map, List.map_cons, List.map_map, Nat.add_zero]
  congr 1
  apply List.map_congr_left
  intro i _
  have hplace : (tail.toNat + (i + 1)) % N = ((tail + 1#w).toNat + i) % N := by
    rw [Nat.add_mod (tail + 1#w).toNat, hnext, ← Nat.add_mod, Nat.add_assoc, Nat.add_comm 1]
  dsimp only [Function.comp]
  rw [Nat.succ_eq_add_one, hplace]

end Xeneva.Base
