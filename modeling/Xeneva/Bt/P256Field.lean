import Xeneva.Base.Ladder
import Xeneva.Bt.P256

/-!
# The prime of P-256

The prime is certified by the factors of its predecessor, and the large factors are certified in
the same way.
-/

namespace Xeneva.Bt.P256
open Base

/-- The prime of the field. -/
@[irreducible] def P : ℕ := 115792089210356248762697446949407573530086143415290314195533631308867097853951

/-- The powers that certify the prime and the large factors below it, checked at once. -/
theorem certificates :
    Ladder.certified 64 34282281433 17 [2, 3, 7, 204061199] ∧
    Ladder.certified 64 66417393611 6 [2, 5, 53, 173, 197, 3677] ∧
    Ladder.certified 64 11290956913871 13 [2, 5, 17, 66417393611] ∧
    Ladder.certified 64 46076956964474543 5 [2, 23, 18169, 78283, 704251] ∧
    Ladder.certified 256 774023187263532362759620327192479577272145303 3
      [2, 3, 2411, 34282281433, 11290956913871, 46076956964474543] ∧
    Ladder.certified 256 835945042244614951780389953367877943453916927241 11
      [2, 3, 5, 774023187263532362759620327192479577272145303] ∧
    Ladder.certified 256 P 6 [2, 3, 5, 17, 257, 641, 1531, 65537, 490463, 6700417,
      835945042244614951780389953367877943453916927241] := by
  decide +kernel

theorem prime_34282281433 : Nat.Prime 34282281433 := by
  apply Ladder.prime_of_certified 64 17 [2, 3, 7, 204061199] _ certificates.1
  simp only [List.forall_mem_cons]
  exact ⟨by norm_num, by norm_num, by norm_num, by norm_num, by simp⟩

theorem prime_66417393611 : Nat.Prime 66417393611 := by
  apply Ladder.prime_of_certified 64 6 [2, 5, 53, 173, 197, 3677] _ certificates.2.1
  simp only [List.forall_mem_cons]
  exact ⟨by norm_num, by norm_num, by norm_num, by norm_num, by norm_num, by norm_num, by simp⟩

theorem prime_11290956913871 : Nat.Prime 11290956913871 := by
  apply Ladder.prime_of_certified 64 13 [2, 5, 17, 66417393611] _ certificates.2.2.1
  simp only [List.forall_mem_cons]
  exact ⟨by norm_num, by norm_num, by norm_num, prime_66417393611, by simp⟩

theorem prime_46076956964474543 : Nat.Prime 46076956964474543 := by
  apply Ladder.prime_of_certified 64 5 [2, 23, 18169, 78283, 704251] _ certificates.2.2.2.1
  simp only [List.forall_mem_cons]
  exact ⟨by norm_num, by norm_num, by norm_num, by norm_num, by norm_num, by simp⟩

theorem prime_r : Nat.Prime 774023187263532362759620327192479577272145303 := by
  apply Ladder.prime_of_certified 256 3
    [2, 3, 2411, 34282281433, 11290956913871, 46076956964474543] _ certificates.2.2.2.2.1
  simp only [List.forall_mem_cons]
  exact ⟨by norm_num, by norm_num, by norm_num, prime_34282281433, prime_11290956913871,
    prime_46076956964474543, by simp⟩

theorem prime_q : Nat.Prime 835945042244614951780389953367877943453916927241 := by
  apply Ladder.prime_of_certified 256 11
    [2, 3, 5, 774023187263532362759620327192479577272145303] _ certificates.2.2.2.2.2.1
  simp only [List.forall_mem_cons]
  exact ⟨by norm_num, by norm_num, by norm_num, prime_r, by simp⟩

theorem prime_P : Nat.Prime P := by
  apply Ladder.prime_of_certified 256 6 [2, 3, 5, 17, 257, 641, 1531, 65537, 490463, 6700417,
    835945042244614951780389953367877943453916927241] _ certificates.2.2.2.2.2.2
  simp only [List.forall_mem_cons]
  exact ⟨by norm_num, by norm_num, by norm_num, by norm_num, by norm_num, by norm_num,
    by norm_num, by norm_num, by norm_num, by norm_num, prime_q, by simp⟩

instance : Fact (Nat.Prime P) := ⟨prime_P⟩

end Xeneva.Bt.P256

/-!
# The field of P-256

The word operations compute sums, differences, products and inverses modulo the prime, fully
reduced.
-/

namespace Xeneva.Bt.P256
open Base Base.Limbs

variable {a b : Fe} {w : Wide}

theorem FE_P_val : FE_P.val = P := by
  unfold P
  rfl

theorem Fe.val_lt (a : Fe) : a.val < 2 ^ 256 := by
  have h := Base.Limbs.val_lt a.d
  rwa [a.size] at h

theorem P_bounds : 2 ^ 255 < P ∧ P < 2 ^ 256 := by
  unfold P
  norm_num

theorem feMod_val (r : Fe) : (feMod r).val = r.val % P := by
  induction r using feMod.induct with
  | case1 r h ih =>
    rw [feCmp_eq, ne_eq, Nat.compare_eq_lt, FE_P_val, Nat.not_lt] at h
    unfold feMod
    rw [if_pos (by rw [feCmp_eq, ne_eq, Nat.compare_eq_lt, FE_P_val]; exact Nat.not_lt.mpr h), ih,
      feSub_val (by rwa [FE_P_val]), FE_P_val, ← Nat.mod_eq_sub_mod h]
  | case2 r h =>
    rw [feCmp_eq, ne_eq, Nat.compare_eq_lt, FE_P_val, not_not] at h
    unfold feMod
    rw [if_neg (by rwa [feCmp_eq, ne_eq, Nat.compare_eq_lt, FE_P_val, not_not]),
      Nat.mod_eq_of_lt h]

theorem feAdd_val (a b : Fe) : (feAdd a b).val = (a.val + b.val) % 2 ^ 256 := by
  have h := add_val (a.size.trans b.size.symm) 0
  have hlt := (feAdd a b).val_lt
  rw [a.size, Nat.zero_add] at h
  change (feAdd a b).val + 2 ^ 256 * _ = a.val + b.val at h
  rw [← h, Nat.add_mul_mod_self_left, Nat.mod_eq_of_lt hlt]

theorem feSub_wrap {a b : Fe} (h : a.val < b.val) :
    (feSub a b).val + b.val = a.val + 2 ^ 256 := by
  have hs := sub_of_lt (a.size.trans b.size.symm) h
  rwa [a.size] at hs

theorem feCmp_lt_iff : feCmp a b = .lt ↔ a.val < b.val := by
  rw [feCmp_eq, Nat.compare_eq_lt]

/-- The prime is added where the difference would be negative; what that carries out, the
subtraction borrows. -/
theorem feSub_feAdd_val {p : Fe} (hb : b.val ≤ p.val) (h : a.val < b.val) :
    (feSub (feAdd a p) b).val = a.val + p.val - b.val := by
  have hadd := feAdd_val a p
  have ha := a.val_lt
  have hp := p.val_lt
  by_cases hover : a.val + p.val < 2 ^ 256
  · rw [Nat.mod_eq_of_lt hover] at hadd
    rw [feSub_val (by omega), hadd]
  · rw [Nat.mod_eq_sub_mod (Nat.not_lt.mp hover), Nat.mod_eq_of_lt (by omega)] at hadd
    have hw := feSub_wrap (show (feAdd a p).val < b.val by omega)
    omega

/-- The difference of an element and a reduced one. -/
theorem feSubm_val (a : Fe) (hb : b.val < P) : (feSubm a b).val = (a.val + P - b.val) % P := by
  unfold feSubm
  rw [feMod_val]
  by_cases h : feCmp a b = .lt
  · rw [if_neg (not_not.mpr h), feSub_feAdd_val (by rw [FE_P_val]; omega) (feCmp_lt_iff.mp h),
      FE_P_val]
  · have hle : b.val ≤ a.val := Nat.not_lt.mp (fun hlt => h (feCmp_lt_iff.mpr hlt))
    rw [if_pos h, feSub_val hle, show a.val + P - b.val = a.val - b.val + P by omega,
      Nat.add_mod_right]

/-! ## Reduction -/

def Wide.val (w : Wide) : ℕ := Base.Limbs.val w.d

theorem Wide.val_lt (w : Wide) : w.val < P * 2 ^ (256 + 1) := by
  have h512 : 32 * w.d.length = 255 + (256 + 1) := by rw [w.size]
  have h := Base.Limbs.val_lt w.d
  rw [h512, pow_add] at h
  exact Nat.lt_of_lt_of_le h (Nat.mul_le_mul_right _ (Nat.le_of_lt P_bounds.1))

theorem Wide.testBit_setBit (w : Wide) {k : ℕ} (hk : k < 512) (n : ℕ) :
    (w.setBit k).val.testBit n = (w.val.testBit n || decide (n = k)) := by
  unfold Wide.val Wide.setBit
  rw [testBit_val, testBit_val, bit_setBit (by rw [w.size]; omega)]

/-- The bits of the prime that have been moved. -/
theorem testBit_pShift (sh k n : ℕ) :
    ((List.range n).foldl
      (fun dst i => if bit FE_P.d i ∧ i + sh < 512 then dst.setBit (i + sh) else dst)
      (⟨List.replicate 16 0, rfl⟩ : Wide)).val.testBit k =
        decide (sh ≤ k ∧ k < 512 ∧ k - sh < n ∧ P.testBit (k - sh) = true) := by
  induction n with
  | zero => simp [Wide.val]
  | succ n ih =>
    have hbit : bit FE_P.d n = P.testBit n := by
      rw [← FE_P_val]
      exact (testBit_val FE_P.d n).symm
    rw [List.range_succ, List.foldl_append, List.foldl_cons, List.foldl_nil, hbit]
    split
    next h =>
      rw [Wide.testBit_setBit _ h.2, ih, ← Bool.decide_or]
      apply decide_eq_decide.mpr
      constructor
      · intro h'
        apply h'.elim
        · intro ⟨h₁, h₂, h₃, h₄⟩
          exact ⟨h₁, h₂, by omega, h₄⟩
        · intro hk
          rw [hk, Nat.add_sub_cancel]
          exact ⟨by omega, h.2, by omega, h.1⟩
      · intro ⟨h₁, h₂, h₃, h₄⟩
        by_cases hk : k = n + sh
        · exact Or.inr hk
        · exact Or.inl ⟨h₁, h₂, by omega, h₄⟩
    next h =>
      rw [ih]
      apply decide_eq_decide.mpr
      constructor
      · intro ⟨h₁, h₂, h₃, h₄⟩
        exact ⟨h₁, h₂, by omega, h₄⟩
      · intro ⟨h₁, h₂, h₃, h₄⟩
        refine ⟨h₁, h₂, ?_, h₄⟩
        by_contra hn
        have hk : k - sh = n := by omega
        rw [hk] at h₄
        exact h ⟨h₄, by omega⟩

theorem pShift_val {sh : ℕ} (h : sh ≤ 256) : (pShift sh).val = P * 2 ^ sh := by
  apply Nat.eq_of_testBit_eq
  intro k
  unfold pShift
  rw [testBit_pShift, Nat.testBit_mul_two_pow]
  by_cases hs : sh ≤ k
  · by_cases hp : P.testBit (k - sh) = true
    · have hlt : k - sh < 256 := by
        by_contra hge
        have h0 : P.testBit (k - sh) = false := by
          apply Nat.testBit_lt_two_pow
          exact Nat.lt_of_lt_of_le P_bounds.2 (Nat.pow_le_pow_right (by decide) (by omega))
        rw [h0] at hp
        exact absurd hp (by decide)
      rw [decide_eq_true ⟨hs, by omega, hlt, hp⟩, hp, decide_eq_true hs]
      rfl
    · rw [decide_eq_false fun h => hp h.2.2.2, Bool.eq_false_iff.mpr hp, Bool.and_false]
  · rw [decide_eq_false fun h => hs h.1, decide_eq_false hs, Bool.false_and]

/-- A turn halves the bound. -/
theorem reduceStep_spec {sh : ℕ} (h : sh ≤ 256) (hw : w.val < P * 2 ^ (sh + 1)) :
    (reduceStep sh w).val < P * 2 ^ sh ∧ (reduceStep sh w).val % P = w.val % P := by
  have hps := pShift_val h
  have hcmp : wideCmp w (pShift sh) = compare w.val (P * 2 ^ sh) := by
    rw [← hps]
    exact wordCmp_eq (w.size.trans (pShift sh).size.symm)
  unfold reduceStep
  by_cases hlt' : wideCmp w (pShift sh) = .lt
  · rw [if_neg (not_not.mpr hlt')]
    rw [hcmp, Nat.compare_eq_lt] at hlt'
    exact ⟨hlt', rfl⟩
  · have hlt : ¬w.val < P * 2 ^ sh := by
      rwa [hcmp, Nat.compare_eq_lt] at hlt'
    have hsub : (wideSub w (pShift sh)).val = w.val - P * 2 ^ sh := by
      rw [← hps]
      apply sub_of_le (w.size.trans (pShift sh).size.symm)
      rw [← hps] at hlt
      exact Nat.not_lt.mp hlt
    rw [if_pos hlt', hsub]
    rw [pow_succ, ← mul_assoc] at hw
    constructor
    · omega
    · have hsplit : w.val = (w.val - P * 2 ^ sh) + P * 2 ^ sh := by omega
      rw [hsplit, Nat.add_sub_cancel, Nat.add_mul_mod_self_left]

theorem reduceFrom_spec {sh : ℕ} (h : sh ≤ 256) (hw : w.val < P * 2 ^ (sh + 1)) :
    (reduceFrom sh w).val = w.val % P := by
  induction sh generalizing w with
  | zero =>
    obtain ⟨hlt, hmod⟩ := reduceStep_spec h hw
    rw [pow_zero, mul_one] at hlt
    rw [← hmod]
    exact (Nat.mod_eq_of_lt hlt).symm
  | succ sh ih =>
    obtain ⟨hlt, hmod⟩ := reduceStep_spec h hw
    rw [← hmod]
    exact ih (by omega) hlt

/-- The high words of a small number are zero. -/
theorem Wide.val_take (w : Wide) (h : w.val < 2 ^ 256) : Base.Limbs.val (w.d.take 8) = w.val := by
  have hsplit := val_append (w.d.take 8) (w.d.drop 8)
  have h8 : 32 * (w.d.take 8).length = 256 := by
    rw [List.length_take, w.size]
    rfl
  rw [List.take_append_drop, h8] at hsplit
  have hzero : Base.Limbs.val (w.d.drop 8) = 0 := by
    by_contra hne
    have hle := Nat.le_mul_of_pos_right (2 ^ 256) (Nat.pos_of_ne_zero hne)
    have hge : 2 ^ 256 ≤ w.val :=
      Nat.le_trans hle (Nat.le_trans (Nat.le_add_left _ _) (Nat.le_of_eq hsplit.symm))
    exact absurd h (Nat.not_lt.mpr hge)
  rw [hzero, mul_zero, add_zero] at hsplit
  exact hsplit.symm

/-- One subtraction for each bit is enough for every product. -/
theorem feReduceWide_val (w : Wide) : (feReduceWide w).val = w.val % P := by
  have hr := reduceFrom_spec (Nat.le_refl 256) w.val_lt
  have hsmall : (reduceFrom 256 w).val < 2 ^ 256 := by
    rw [hr]
    exact Nat.lt_trans (Nat.mod_lt _ prime_P.pos) P_bounds.2
  unfold feReduceWide Fe.val
  rw [Wide.val_take _ hsmall, hr]

theorem feMul_val (a b : Fe) : (feMul a b).val = a.val * b.val % P := by
  unfold feMul
  rw [feReduceWide_val]
  have h := (mulRows_spec a.d (List.replicate 8 0) b.size.symm).2
  rw [a.size, val_zeros, add_zero] at h
  change Base.Limbs.val (mulRows a.d b.d (List.replicate 16 0)) % P = _
  rw [show List.replicate 16 (0 : UInt32) = List.replicate 8 0 ++ List.replicate 8 0 by rfl, h]
  rfl

theorem feAddm_val (a b : Fe) : (feAddm a b).val = (a.val + b.val) % P := by
  have h := add_val (a.size.trans b.size.symm) 0
  have ha := a.val_lt
  have hb := b.val_lt
  rw [a.size, Nat.zero_add] at h
  change _ = a.val + b.val at h
  have hcarry : (add 0 a.d b.d).2 < 2 ^ 32 := by omega
  have hlen : 32 * (add 0 a.d b.d).1.length = 32 * 8 := by simp [a.size, b.size]
  unfold feAddm
  rw [feReduceWide_val]
  change Base.Limbs.val ((add 0 a.d b.d).1 ++ UInt32.ofNat (add 0 a.d b.d).2 :: List.replicate 7 0)
    % P = _
  rw [val_append, hlen, val_cons, val_zeros, mul_zero, add_zero, UInt32.toNat_ofNat',
    Nat.mod_eq_of_lt hcarry, h]

theorem feWord_val (w : UInt32) : (feWord w).val = w.toNat := by
  simp [Fe.val, feWord]

/-- The bits of the exponent. -/
theorem value_pm2 : Ladder.value (pm2Bytes.flatMap byteBits) = P - 2 := by decide +kernel

theorem feInv_val (a : Fe) : (feInv a).val = a.val ^ (P - 2) % P := by
  unfold feInv
  rw [← value_pm2]
  apply Ladder.foldl_value (R := fun (r : Fe) n => r.val = a.val ^ n % P)
  · intro r n b hr
    have hsq : (feMul r r).val = a.val ^ (2 * n) % P := by
      rw [feMul_val, hr, ← Nat.mul_mod, ← pow_add, two_mul]
    cases b with
    | false => exact hsq
    | true =>
      change (feMul (feMul r r) a).val = a.val ^ (2 * n + 1) % P
      rw [feMul_val, hsq, Nat.mod_mul_mod, pow_succ]
  · rw [feWord_val, pow_zero, Nat.mod_eq_of_lt prime_P.one_lt]
    rfl

theorem feIs0_iff : feIs0 a ↔ a.val = 0 := by
  unfold feIs0 Fe.val
  rw [List.all_eq_true, val_eq_zero_iff]
  simp

/-- The element that the words stand for. -/
def Fe.elt (a : Fe) : ZMod P := (a.val : ZMod P)

theorem Fe.elt_inj (ha : a.val < P) (hb : b.val < P) : a.elt = b.elt ↔ a.val = b.val := by
  unfold Fe.elt
  rw [ZMod.natCast_eq_natCast_iff', Nat.mod_eq_of_lt ha, Nat.mod_eq_of_lt hb]

theorem Fe.elt_eq_zero_iff (ha : a.val < P) : a.elt = 0 ↔ a.val = 0 := by
  unfold Fe.elt
  rw [ZMod.natCast_eq_zero_iff]
  exact ⟨fun h => Nat.eq_zero_of_dvd_of_lt h ha, fun h => h ▸ dvd_zero P⟩

theorem mod_lt_P (n : ℕ) : n % P < P := Nat.mod_lt n prime_P.pos

theorem feSubm_lt (a b : Fe) : (feSubm a b).val < P := by
  unfold feSubm
  rw [feMod_val]
  exact mod_lt_P _

theorem feMul_elt (a b : Fe) : (feMul a b).elt = a.elt * b.elt := by
  unfold Fe.elt
  rw [feMul_val, ZMod.natCast_mod, Nat.cast_mul]

theorem feAddm_elt (a b : Fe) : (feAddm a b).elt = a.elt + b.elt := by
  unfold Fe.elt
  rw [feAddm_val, ZMod.natCast_mod, Nat.cast_add]

theorem feSubm_elt (a : Fe) (hb : b.val < P) : (feSubm a b).elt = a.elt - b.elt := by
  unfold Fe.elt
  rw [feSubm_val a hb, ZMod.natCast_mod, Nat.cast_sub (by omega), Nat.cast_add,
    ZMod.natCast_self, add_zero]

/-- The power is the inverse, and zero for zero. -/
theorem feInv_elt (a : Fe) : (feInv a).elt = a.elt⁻¹ := by
  unfold Fe.elt
  rw [feInv_val, ZMod.natCast_mod, Nat.cast_pow]
  by_cases h : (a.val : ZMod P) = 0
  · rw [h, inv_zero, zero_pow (by have := P_bounds; omega)]
  · apply eq_inv_of_mul_eq_one_left
    rw [← pow_succ, show P - 2 + 1 = P - 1 by have := P_bounds; omega]
    exact ZMod.pow_card_sub_one_eq_one h

/-- The number that the bytes say, the most significant first. -/
def beVal (bs : List UInt8) : ℕ := bs.foldl (fun n b => 256 * n + b.toNat) 0

theorem beVal_append (as bs : List UInt8) :
    beVal (as ++ bs) = beVal as * 256 ^ bs.length + beVal bs := by
  have hgen : ∀ n, bs.foldl (fun n b => 256 * n + b.toNat) n = n * 256 ^ bs.length + beVal bs := by
    intro n
    induction bs generalizing n with
    | nil => simp [beVal]
    | cons b bs ih =>
      unfold beVal
      rw [List.foldl_cons, List.foldl_cons, ih, ih (256 * 0 + b.toNat), List.length_cons, pow_succ]
      ring
  unfold beVal
  rw [List.foldl_append, hgen]
  rfl

theorem val_wordsOf_reverse {bs : List UInt8} {n : ℕ} (h : bs.length = 4 * n) :
    Base.Limbs.val (wordsOf bs).reverse = beVal bs := by
  induction n generalizing bs with
  | zero =>
    rw [List.length_eq_zero_iff.mp h]
    rfl
  | succ n ih =>
    match bs, h with
    | b₃ :: b₂ :: b₁ :: b₀ :: bs, h =>
      have hlen : bs.length = 4 * n := by simpa [Nat.mul_succ] using h
      have h₃ := b₃.toNat_lt
      have h₂ := b₂.toNat_lt
      have h₁ := b₁.toNat_lt
      have h₀ := b₀.toNat_lt
      have hfour : beVal [b₃, b₂, b₁, b₀] =
          b₃.toNat * 2 ^ 24 + b₂.toNat * 2 ^ 16 + b₁.toNat * 2 ^ 8 + b₀.toNat := by
        simp only [beVal, List.foldl_cons, List.foldl_nil]
        omega
      have hsplit := beVal_append [b₃, b₂, b₁, b₀] bs
      rw [hfour, hlen, show (256 : ℕ) ^ (4 * n) = 2 ^ (32 * n) by
        rw [show 256 = 2 ^ 8 by rfl, ← pow_mul]; congr 1; omega] at hsplit
      rw [wordsOf, List.reverse_cons, val_append, ih hlen, List.length_reverse, length_wordsOf hlen,
        val_cons, val_nil, mul_zero, add_zero, UInt32.toNat_ofNat', Nat.mod_eq_of_lt (by omega)]
      change _ = beVal ([b₃, b₂, b₁, b₀] ++ bs)
      rw [hsplit, mul_comm, add_comm]
    | [], h | [_], h | [_, _], h | [_, _, _], h => simp at h <;> omega

theorem feFromBe_val (b : Bytes32) : (feFromBe b).val = beVal b.d :=
  val_wordsOf_reverse (n := 8) b.size

theorem beVal_bytesOf (w : UInt32) : beVal (bytesOf w) = w.toNat := by
  have hw := w.toNat_lt
  simp only [beVal, bytesOf, List.foldl_cons, List.foldl_nil, UInt8.toNat_ofNat']
  omega

theorem beVal_flatMap_bytesOf (ws : List UInt32) :
    beVal (ws.reverse.flatMap bytesOf) = Base.Limbs.val ws := by
  induction ws with
  | nil => rfl
  | cons w ws ih =>
    rw [List.reverse_cons, List.flatMap_append, beVal_append, ih, val_cons, List.flatMap_cons,
      List.flatMap_nil, List.append_nil, beVal_bytesOf]
    change Base.Limbs.val ws * 256 ^ 4 + w.toNat = _
    omega

theorem feToBe_val (a : Fe) : beVal (feToBe a).d = a.val := beVal_flatMap_bytesOf a.d

theorem value_byteBits (b : UInt8) : Ladder.value (byteBits b) = b.toNat := by
  have h := Ladder.value_lowBits b.toNat 8
  rw [Nat.mod_eq_of_lt b.toNat_lt] at h
  exact h

theorem value_scalar (bs : List UInt8) : Ladder.value (bs.flatMap byteBits) = beVal bs := by
  induction bs with
  | nil => rfl
  | cons b bs ih =>
    have hlen : (bs.flatMap byteBits).length = 8 * bs.length := by
      simp [List.length_flatMap, byteBits, List.map_const', mul_comm]
    have h1 : beVal [b] = b.toNat := Nat.zero_add _
    rw [List.flatMap_cons, Ladder.value_append, value_byteBits, ih, hlen, ← List.singleton_append,
      beVal_append, h1, pow_mul]
    rfl

end Xeneva.Bt.P256
