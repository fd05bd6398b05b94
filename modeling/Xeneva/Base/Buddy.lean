import Mathlib

/-!
# Aligned blocks of numbers

`block h o` are the `2 ^ o` numbers from `h` on. A block splits into two halves, and an
aligned block and its buddy are the halves of one aligned block.
-/

namespace Xeneva.Base

variable {h o p : ℕ}

def block (h o : ℕ) : Finset ℕ := Finset.Ico h (h + 2 ^ o)

@[simp] theorem mem_block : p ∈ block h o ↔ h ≤ p ∧ p < h + 2 ^ o := Finset.mem_Ico

theorem head_mem_block (h o : ℕ) : h ∈ block h o := by
  have := Nat.two_pow_pos o
  simp only [mem_block]
  omega

@[simp] theorem card_block (h o : ℕ) : (block h o).card = 2 ^ o := by
  simp [block]

theorem block_succ (h o : ℕ) : block h (o + 1) = block h o ∪ block (h + 2 ^ o) o := by
  ext p
  simp only [Finset.mem_union, mem_block, pow_succ]
  omega

theorem block_halves (h o : ℕ) : Disjoint (block h o) (block (h + 2 ^ o) o) := by
  rw [Finset.disjoint_left]
  intro p hp hq
  simp only [mem_block] at hp hq
  omega

theorem dvd_half (ha : 2 ^ (o + 1) ∣ h) : 2 ^ o ∣ h ∧ 2 ^ o ∣ h + 2 ^ o := by
  have hd : 2 ^ o ∣ h := (pow_dvd_pow 2 (Nat.le_succ o)).trans ha
  exact ⟨hd, Nat.dvd_add hd (Nat.dvd_refl _)⟩

/-- The number of the block with which an aligned block makes up one of the next order. -/
def buddy (h o : ℕ) : ℕ := h ^^^ 2 ^ o

theorem buddy_cases (ha : 2 ^ o ∣ h) :
    (buddy h o = h + 2 ^ o ∧ 2 ^ (o + 1) ∣ h) ∨
      (h = buddy h o + 2 ^ o ∧ 2 ^ (o + 1) ∣ buddy h o) := by
  obtain ⟨q, rfl⟩ := ha
  have hx : buddy (2 ^ o * q) o = 2 ^ o * (q ^^^ 1) := by
    have hd := @Nat.shiftLeft_xor_distrib o q 1
    simp only [Nat.shiftLeft_eq, one_mul] at hd
    rw [buddy, Nat.mul_comm, ← hd, Nat.mul_comm]
  rw [hx, pow_succ]
  rcases Nat.even_or_odd q with hq | hq
  · left
    rw [Nat.xor_one_of_even hq]
    exact ⟨by ring, Nat.mul_dvd_mul_left _ hq.two_dvd⟩
  · right
    rw [Nat.xor_one_of_odd hq]
    obtain ⟨k, rfl⟩ := hq
    refine ⟨by simp; ring, Nat.mul_dvd_mul_left _ ?_⟩
    simp

@[simp] theorem buddy_buddy (h o : ℕ) : buddy (buddy h o) o = h := Nat.xor_xor_cancel_right h _

theorem buddy_ne (h o : ℕ) : buddy h o ≠ h := by
  intro he
  have hxor := congrArg (h ^^^ ·) he
  simp only [buddy, Nat.xor_xor_cancel_left, Nat.xor_self] at hxor
  exact absurd hxor (Nat.ne_of_gt (Nat.two_pow_pos o))

/-- The buddy of the second half is the first. -/
theorem buddy_right (ha : 2 ^ (o + 1) ∣ h) : buddy (h + 2 ^ o) o = h := by
  have hd := dvd_half ha
  rcases buddy_cases hd.1 with ⟨he, -⟩ | ⟨he, hb⟩
  · rw [← he, buddy_buddy]
  · -- a multiple of the next power is no second half
    exfalso
    have hdvd : 2 ^ (o + 1) ∣ 2 ^ o := (Nat.dvd_add_right hb).mp (he ▸ ha)
    have hle := Nat.le_of_dvd (Nat.two_pow_pos o) hdvd
    rw [pow_succ] at hle
    have := Nat.two_pow_pos o
    omega

theorem buddy_dvd (ha : 2 ^ o ∣ h) : 2 ^ o ∣ buddy h o := by
  rcases buddy_cases ha with ⟨he, -⟩ | ⟨-, hd⟩
  · rw [he]
    exact Nat.dvd_add ha (Nat.dvd_refl _)
  · exact (pow_dvd_pow 2 (Nat.le_succ o)).trans hd

/-- An aligned block and its buddy make up the aligned block of the lower of their heads. -/
theorem block_buddy (ha : 2 ^ o ∣ h) :
    block (if buddy h o < h then buddy h o else h) (o + 1) = block h o ∪ block (buddy h o) o ∧
      2 ^ (o + 1) ∣ (if buddy h o < h then buddy h o else h) := by
  have hpos := Nat.two_pow_pos o
  rcases buddy_cases ha with ⟨he, hd⟩ | ⟨he, hd⟩
  · rw [if_neg (by omega)]
    refine ⟨?_, hd⟩
    rw [block_succ, he]
  · rw [if_pos (by omega)]
    refine ⟨?_, hd⟩
    rw [block_succ, Finset.union_comm, ← he]

end Xeneva.Base

/-!
# The maximal blocks of a set

Aligned blocks that meet are nested. So a family of disjoint aligned blocks that covers a set and
has no two buddies is the family of its maximal aligned blocks, and is determined by the set.
-/

namespace Xeneva.Base

variable {h h' o o' p top : ℕ} {F : Set ℕ}

/-- The numbers of an aligned block have one quotient. -/
theorem mem_block_iff_div (hd : 2 ^ o ∣ h) : p ∈ block h o ↔ p / 2 ^ o = h / 2 ^ o := by
  obtain ⟨q, rfl⟩ := hd
  have hpos := Nat.two_pow_pos o
  rw [mem_block, Nat.mul_div_cancel_left q hpos, Nat.div_eq_iff hpos, Nat.mul_comm q]
  omega

theorem block_subset (hd : 2 ^ o ∣ h) (hd' : 2 ^ o' ∣ h') (ho : o ≤ o') (hp : p ∈ block h o)
    (hp' : p ∈ block h' o') : block h o ⊆ block h' o' := by
  obtain ⟨k, rfl⟩ := Nat.exists_eq_add_of_le ho
  intro q hq
  rw [mem_block_iff_div hd] at hp hq
  rw [mem_block_iff_div hd', pow_add, ← Nat.div_div_eq_div_mul] at hp' ⊢
  rw [hq, ← hp]
  exact hp'

theorem block_inj (hd : 2 ^ o ∣ h) (hd' : 2 ^ o ∣ h') (hp : p ∈ block h o) (hp' : p ∈ block h' o) :
    h = h' := by
  rw [mem_block_iff_div hd] at hp
  rw [mem_block_iff_div hd'] at hp'
  rw [← Nat.div_mul_cancel hd, ← Nat.div_mul_cancel hd', ← hp, hp']

theorem order_le_of_subset (hs : block h o ⊆ block h' o') : o ≤ o' := by
  have hcard := Finset.card_le_card hs
  rw [card_block, card_block] at hcard
  exact (Nat.pow_le_pow_iff_right (by decide)).mp hcard

/-- A block of order `top` at most that lies in no other such block of the set. -/
structure Maximal (top : ℕ) (F : Set ℕ) (h o : ℕ) : Prop where
  le : o ≤ top
  dvd : 2 ^ o ∣ h
  sub : ∀ p ∈ block h o, p ∈ F
  largest : ∀ h' o', o' ≤ top → 2 ^ o' ∣ h' → (∀ p ∈ block h' o', p ∈ F) →
    block h o ⊆ block h' o' → h' = h ∧ o' = o

/-- Disjoint aligned blocks that cover a set, no two of them buddies. -/
structure Tiling (top : ℕ) (F : Set ℕ) (B : ℕ → ℕ → Prop) : Prop where
  le : ∀ {h o}, B h o → o ≤ top
  dvd : ∀ {h o}, B h o → 2 ^ o ∣ h
  sub : ∀ {h o}, B h o → ∀ p ∈ block h o, p ∈ F
  apart : ∀ {h o h' o' p}, B h o → B h' o' → p ∈ block h o → p ∈ block h' o' → h = h' ∧ o = o'
  cover : ∀ {p}, p ∈ F → ∃ h o, B h o ∧ p ∈ block h o
  buddies : ∀ {h o}, o < top → B h o → ¬B (buddy h o) o

variable {B : ℕ → ℕ → Prop}

/-- A block of the set lies in one of the blocks of the family. -/
theorem Tiling.subset (ht : Tiling top F B) (ho : o ≤ top) (hd : 2 ^ o ∣ h)
    (hF : ∀ p ∈ block h o, p ∈ F) : ∃ h' o', B h' o' ∧ block h o ⊆ block h' o' := by
  induction o generalizing h with
  | zero =>
    obtain ⟨h', o', hB, hh⟩ := ht.cover (hF h (head_mem_block h 0))
    exact ⟨h', o', hB, block_subset hd (ht.dvd hB) (Nat.zero_le o') (head_mem_block h 0) hh⟩
  | succ o ih =>
    obtain ⟨hd₁, hd₂⟩ := dvd_half hd
    have hsplit := block_succ h o
    have hin₁ : ∀ p ∈ block h o, p ∈ block h (o + 1) := by
      intro p hp
      rw [hsplit]
      exact Finset.mem_union_left _ hp
    have hin₂ : ∀ p ∈ block (h + 2 ^ o) o, p ∈ block h (o + 1) := by
      intro p hp
      rw [hsplit]
      exact Finset.mem_union_right _ hp
    obtain ⟨h₁, o₁, hB₁, hs₁⟩ := ih (by omega) hd₁ fun p hp => hF p (hin₁ p hp)
    obtain ⟨h₂, o₂, hB₂, hs₂⟩ := ih (by omega) hd₂ fun p hp => hF p (hin₂ p hp)
    have hm₁ := hs₁ (head_mem_block h o)
    have hm₂ := hs₂ (head_mem_block (h + 2 ^ o) o)
    have hle₁ := order_le_of_subset hs₁
    have hle₂ := order_le_of_subset hs₂
    by_cases hlt₁ : o < o₁
    · exact ⟨h₁, o₁, hB₁, block_subset hd (ht.dvd hB₁) hlt₁ (head_mem_block h (o + 1)) hm₁⟩
    by_cases hlt₂ : o < o₂
    · exact ⟨h₂, o₂, hB₂, block_subset hd (ht.dvd hB₂) hlt₂ (hin₂ _ (head_mem_block _ o)) hm₂⟩
    -- otherwise the two halves are in the family, and they are buddies
    obtain rfl : o₁ = o := by omega
    obtain rfl : o₂ = o₁ := by omega
    have he₁ := block_inj hd₁ (ht.dvd hB₁) (head_mem_block h o₂) hm₁
    have he₂ := block_inj hd₂ (ht.dvd hB₂) (head_mem_block _ o₂) hm₂
    rw [← he₁] at hB₁
    rw [← he₂] at hB₂
    apply absurd _ (ht.buddies (by omega) hB₂)
    rwa [buddy_right hd]

/-- The family is determined by the set. -/
theorem Tiling.iff_maximal (ht : Tiling top F B) : B h o ↔ Maximal top F h o := by
  constructor
  · intro hB
    refine ⟨ht.le hB, ht.dvd hB, ht.sub hB, ?_⟩
    intro h' o' ho' hd' hF hs
    obtain ⟨h'', o'', hB'', hs'⟩ := ht.subset ho' hd' hF
    obtain ⟨rfl, rfl⟩ := ht.apart hB hB'' (head_mem_block h o) (hs' (hs (head_mem_block h o)))
    have hle := order_le_of_subset hs
    have hle' := order_le_of_subset hs'
    obtain rfl : o' = o := by omega
    have hh := block_inj (ht.dvd hB) hd' (head_mem_block h o') (hs (head_mem_block h o'))
    exact ⟨hh.symm, rfl⟩
  · intro hm
    obtain ⟨h', o', hB, hs⟩ := ht.subset hm.le hm.dvd hm.sub
    obtain ⟨rfl, rfl⟩ := hm.largest h' o' (ht.le hB) (ht.dvd hB) (ht.sub hB) hs
    exact hB

end Xeneva.Base
