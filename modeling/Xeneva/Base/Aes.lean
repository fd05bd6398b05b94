import Mathlib

/-!
# Bytes as polynomials

A byte is a polynomial over GF(2), its bits the coefficients. Bytes are multiplied modulo
`x⁸ + x⁴ + x³ + x + 1`.
-/

namespace Xeneva.Base.Rijndael

open Polynomial Finset

abbrev Byte := BitVec 8

/-- The product with `x`. -/
def xtimes (b : Byte) : Byte := (b <<< 1) ^^^ if b.getLsbD 7 then 0x1b else 0

/-- The product: `b` times the powers of `x` that `a` has. -/
def mul (a b : Byte) : Byte :=
  (List.range 8).foldl (fun s i => s ^^^ if a.getLsbD i then xtimes^[i] b else 0) 0

noncomputable def modulus : (ZMod 2)[X] := X ^ 8 + X ^ 4 + X ^ 3 + X + 1

noncomputable def toPoly (b : Byte) : (ZMod 2)[X] :=
  ∑ i ∈ range 8, if b.getLsbD i then X ^ i else 0

/-- What a byte stands for, modulo the modulus. -/
noncomputable def value (b : Byte) : AdjoinRoot modulus := AdjoinRoot.mk modulus (toPoly b)

theorem two_add (p : (ZMod 2)[X]) : p + p = 0 := CharTwo.add_self_eq_zero p

theorem bit_add (p q : Bool) (x : (ZMod 2)[X]) :
    (if p ^^ q then x else 0) = (if p then x else 0) + if q then x else 0 := by
  cases p <;> cases q <;> simp [two_add]

theorem toPoly_zero : toPoly 0 = 0 := by
  simp [toPoly]

theorem toPoly_xor (a b : Byte) : toPoly (a ^^^ b) = toPoly a + toPoly b := by
  unfold toPoly
  rw [← sum_add_distrib]
  apply sum_congr rfl
  intro i _
  rw [BitVec.getLsbD_xor]
  exact bit_add _ _ _

theorem toPoly_coeff (b : Byte) {i : ℕ} (hi : i < 8) :
    (toPoly b).coeff i = if b.getLsbD i then 1 else 0 := by
  have hterm : ∀ j, (if b.getLsbD j then (X : (ZMod 2)[X]) ^ j else 0).coeff i =
      if j = i then (if b.getLsbD i then 1 else 0) else 0 := by
    intro j
    by_cases hj : j = i
    · subst hj
      split <;> simp
    · split <;> simp [coeff_X_pow, Ne.symm hj]
  rw [toPoly, finsetSum_coeff, sum_congr rfl fun j _ => hterm j, sum_ite_eq' (range 8) i,
    if_pos (mem_range.2 hi)]

theorem toPoly_degree (b : Byte) : (toPoly b).degree < 8 := by
  refine (degree_sum_le _ _).trans_lt ?_
  rw [Finset.sup_lt_iff (by decide)]
  intro i hi
  have hi : i < 8 := mem_range.1 hi
  split
  · rw [degree_X_pow]
    exact_mod_cast hi
  · rw [degree_zero]
    decide

theorem modulus_degree : modulus.degree = 8 := by
  unfold modulus
  compute_degree!

theorem toPoly_xtimes (b : Byte) :
    X * toPoly b = toPoly (xtimes b) + (if b.getLsbD 7 then modulus else 0) := by
  have hshift : X * toPoly b = toPoly (b <<< 1) + if b.getLsbD 7 then X ^ 8 else 0 := by
    simp only [toPoly, sum_range_succ, sum_range_zero, BitVec.getLsbD_shiftLeft, mul_add, mul_ite,
      mul_zero, ← pow_succ']
    simp
  rw [hshift, xtimes, toPoly_xor, add_assoc]
  congr 1
  split
  · have hpoly : toPoly 0x1b = X ^ 4 + X ^ 3 + X + 1 := by
      simp [toPoly, sum_range_succ]
      ring
    have h8 : (X : (ZMod 2)[X]) ^ 8 = (X ^ 4 + X ^ 3 + X + 1) +
      (X ^ 8 + X ^ 4 + X ^ 3 + X + 1) := by
      have h := two_add (X ^ 4 + X ^ 3 + X + 1)
      linear_combination -h
    rw [hpoly, modulus]
    exact h8
  · rw [toPoly_zero, add_zero]

theorem value_zero : value 0 = 0 := by
  rw [value, toPoly_zero, map_zero]

theorem value_one : value 1 = 1 := by
  have hpoly : toPoly 1 = 1 := by
    simp [toPoly]
  rw [value, hpoly, map_one]

theorem value_xor (a b : Byte) : value (a ^^^ b) = value a + value b := by
  rw [value, toPoly_xor, map_add]
  rfl

theorem value_xtimes (b : Byte) : value (xtimes b) = AdjoinRoot.root modulus * value b := by
  have h := congrArg (AdjoinRoot.mk modulus) (toPoly_xtimes b)
  rw [map_mul, AdjoinRoot.mk_X, map_add] at h
  rw [value, value, h]
  split <;> simp

theorem value_iterate (b : Byte) (i : ℕ) :
    value (xtimes^[i] b) = AdjoinRoot.root modulus ^ i * value b := by
  induction i with
  | zero => simp
  | succ i ih => rw [Function.iterate_succ_apply', value_xtimes, ih, pow_succ', mul_assoc]

/-- The product of bytes is that of what they stand for. -/
theorem value_mul (a b : Byte) : value (mul a b) = value a * value b := by
  have hsum : ∀ n, value ((List.range n).foldl
      (fun s i => s ^^^ if a.getLsbD i then xtimes^[i] b else 0) 0) =
      AdjoinRoot.mk modulus (∑ i ∈ range n, if a.getLsbD i then X ^ i else 0) * value b := by
    intro n
    induction n with
    | zero =>
      rw [range_zero, sum_empty, map_zero, zero_mul]
      exact value_zero
    | succ n ih =>
      rw [List.range_succ, List.foldl_append, List.foldl_cons, List.foldl_nil, value_xor, ih,
        sum_range_succ, map_add, add_mul]
      congr 1
      split
      · rw [value_iterate, map_pow, AdjoinRoot.mk_X]
      · rw [value_zero, map_zero, zero_mul]
  exact hsum 8

theorem value_injective : Function.Injective value := by
  intro a b h
  have hdvd : modulus ∣ toPoly a - toPoly b := AdjoinRoot.mk_eq_mk.1 h
  have hdegree : (toPoly a - toPoly b).degree < modulus.degree := by
    rw [modulus_degree]
    exact (degree_sub_le _ _).trans_lt (max_lt (toPoly_degree a) (toPoly_degree b))
  have heq : toPoly a = toPoly b := sub_eq_zero.1 (eq_zero_of_dvd_of_degree_lt hdvd hdegree)
  apply BitVec.eq_of_getLsbD_eq
  intro i hi
  have hbit := congrArg (fun p => coeff p i) heq
  simp only [toPoly_coeff _ hi] at hbit
  revert hbit
  cases a.getLsbD i <;> cases b.getLsbD i <;> simp

open Classical in
/-- The multiplicative inverse, with `0` for `0`. -/
noncomputable def inverse (b : Byte) : Byte :=
  if h : ∃ c, value b * value c = 1 then h.choose else 0

theorem inverse_of_mul {b c : Byte} (h : mul b c = 1) : inverse b = c := by
  have hc : value b * value c = 1 := by
    rw [← value_mul, h, value_one]
  have hex : ∃ c, value b * value c = 1 := ⟨c, hc⟩
  rw [inverse, dif_pos hex]
  apply value_injective
  have hd := hex.choose_spec
  calc value hex.choose = value hex.choose * (value b * value c) := by rw [hc, mul_one]
    _ = value b * value hex.choose * value c := by ring
    _ = value c := by rw [hd, one_mul]

theorem inverse_zero : inverse 0 = 0 := by
  unfold inverse
  split <;> rename_i h
  · obtain ⟨c, hc⟩ := h
    rw [value_zero, zero_mul, ← value_zero, ← value_one] at hc
    exact absurd (value_injective hc) (by decide)
  · rfl

end Xeneva.Base.Rijndael

/-!
# AES-128 and AES-CMAC

The cipher of FIPS 197 and the message authentication code of RFC 4493.
-/

namespace Xeneva.Base.Aes

open Rijndael

abbrev Block := Vector Byte 16

abbrev Word := Fin 4 → Byte

/-- The byte of a row and a column. -/
abbrev State := Fin 4 → Fin 4 → Byte

def affine (b : Byte) : Byte :=
  BitVec.ofFnLE fun i : Fin 8 =>
    b[i] ^^ b[i + 4] ^^ b[i + 5] ^^ b[i + 6] ^^ b[i + 7] ^^ (0x63 : Byte)[i]

noncomputable def sbox (b : Byte) : Byte := affine (inverse b)

noncomputable def subBytes (s : State) : State := fun r c => sbox (s r c)

def shiftRows (s : State) : State := fun r c => s r (c + r)

def mixColumns (s : State) : State := fun r c =>
  mul 2 (s r c) ^^^ mul 3 (s (r + 1) c) ^^^ s (r + 2) c ^^^ s (r + 3) c

def addRoundKey (w : ℕ → Word) (round : ℕ) (s : State) : State := fun r c =>
  s r c ^^^ w (4 * round + c) r

noncomputable def subWord (w : Word) : Word := fun j => sbox (w j)

def rotWord (w : Word) : Word := fun j => w (j + 1)

def rcon (i : ℕ) : Word := fun j => if j = 0 then xtimes^[i - 1] 1 else 0

/-- The words of the key schedule. -/
noncomputable def word (key : Block) (i : ℕ) : Word :=
  if h : i < 4 then fun j => key[4 * i + j]
  else if i % 4 = 0 then fun j =>
    word key (i - 4) j ^^^ (subWord (rotWord (word key (i - 1))) j ^^^ rcon (i / 4) j)
  else fun j => word key (i - 4) j ^^^ word key (i - 1) j

noncomputable def rounds (w : ℕ → Word) (s : State) : ℕ → State
  | 0 => addRoundKey w 0 s
  | n + 1 => addRoundKey w (n + 1) (mixColumns (shiftRows (subBytes (rounds w s n))))

/-- Blocks are states, column by column. -/
def toState (b : Block) : State := fun r c => b[4 * c.val + r.val]

def ofState (s : State) : Block := Vector.ofFn fun i => s (Fin.ofNat 4 i) (Fin.ofNat 4 (i / 4))

noncomputable def cipher (key input : Block) : Block :=
  let w := word key
  ofState (addRoundKey w 10 (shiftRows (subBytes (rounds w (toState input) 9))))

theorem shiftRows_injective : Function.Injective shiftRows := by
  intro s t h
  funext r c
  have hc := congrFun (congrFun h r) (c - r)
  simpa [shiftRows] using hc

theorem addRoundKey_injective (w : ℕ → Word) (round : ℕ) :
    Function.Injective (addRoundKey w round) := by
  intro s t h
  funext r c
  exact (BitVec.xor_left_inj _).mp (congrFun (congrFun h r) c)

/-- The first of four values, from their mixture. -/
theorem unmix {R : Type*} [CommRing R] (h : (2 : R) = 0) (a : R) {x y z w : R}
    (h0 : a * x + (a + 1) * y + z + w = 0) (h1 : a * y + (a + 1) * z + w + x = 0)
    (h2 : a * z + (a + 1) * w + x + y = 0) (h3 : a * w + (a + 1) * x + y + z = 0) : x = 0 := by
  linear_combination (a ^ 3 + a ^ 2 + a) * h0 + (a ^ 3 + a + 1) * h1 + (a ^ 3 + a ^ 2 + 1) * h2 +
    (a ^ 3 + 1) * h3 - ((a ^ 4 + 2 * a ^ 3 + a ^ 2 + a + 1) * x +
    (a ^ 4 + 2 * a ^ 3 + 2 * a ^ 2 + a + 1) * y + (a ^ 4 + 2 * a ^ 3 + a ^ 2 + 2 * a + 1) * (z + w)) * h

theorem mixColumns_injective : Function.Injective mixColumns := by
  intro s t h
  funext r c
  have h2 : (2 : AdjoinRoot modulus) = 0 := by
    have h := value_xor 1 1
    rw [value_one, one_add_one_eq_two] at h
    exact h.symm.trans value_zero
  have h3 : value 3 = value 2 + 1 := by
    rw [← value_one, ← value_xor]
    rfl
  let x := fun r => value (s r c) - value (t r c)
  have hx : ∀ r, value 2 * x r + (value 2 + 1) * x (r + 1) + x (r + 2) + x (r + 3) = 0 := by
    intro r
    have hr := congrArg value (congrFun (congrFun h r) c)
    simp only [mixColumns, value_xor, value_mul, h3] at hr
    linear_combination hr
  apply value_injective
  apply sub_eq_zero.mp
  match r with
  | 0 => exact unmix h2 _ (hx 0) (hx 1) (hx 2) (hx 3)
  | 1 => exact unmix h2 _ (hx 1) (hx 2) (hx 3) (hx 0)
  | 2 => exact unmix h2 _ (hx 2) (hx 3) (hx 0) (hx 1)
  | 3 => exact unmix h2 _ (hx 3) (hx 0) (hx 1) (hx 2)

theorem subBytes_injective (hs : Function.Injective sbox) : Function.Injective subBytes :=
  fun _ _ h => funext fun r => funext fun c => hs (congrFun (congrFun h r) c)

theorem rounds_injective (hs : Function.Injective sbox) (w : ℕ → Word) (n : ℕ) :
    Function.Injective fun s => rounds w s n := by
  induction n with
  | zero => exact addRoundKey_injective w 0
  | succ n ih =>
    exact (addRoundKey_injective w (n + 1)).comp <| mixColumns_injective.comp <|
      shiftRows_injective.comp <| (subBytes_injective hs).comp ih

def xor (a b : Block) : Block := Vector.zipWith (· ^^^ ·) a b

/-- The first byte holds the highest bits. -/
def toBits (b : Block) : BitVec 128 :=
  BitVec.ofFnLE fun j : Fin 128 => b[15 - j.val / 8].getLsbD (j.val % 8)

def ofBits (x : BitVec 128) : Block := Vector.ofFn fun i => x.extractLsb' (8 * (15 - i.val)) 8

/-- The step from one subkey to the next. -/
def subkey (b : Block) : Block :=
  ofBits (if (toBits b).msb then (toBits b <<< 1) ^^^ 0x87 else toBits b <<< 1)

/-- A last block that is not full ends in a bit `1` and bits `0`. -/
def padding (m : List Byte) : Block := Vector.ofFn fun i => (m ++ [0x80]).getD i 0

def block (m : List Byte) : Block := Vector.ofFn fun i => m.getD i 0

/-- The chain over the blocks of a message. -/
def chain (encrypt : Block → Block) (k1 k2 : Block) (x : Block) (m : List Byte) : Block :=
  if m.length < 16 then encrypt (xor x (xor (padding m) k2))
  else if m.length = 16 then encrypt (xor x (xor (block m) k1))
  else chain encrypt k1 k2 (encrypt (xor x (block (m.take 16)))) (m.drop 16)
termination_by m.length

noncomputable def cmac (key : Block) (m : List Byte) : Block :=
  let k1 := subkey (cipher key (Vector.replicate 16 0))
  let k2 := subkey k1
  chain (cipher key) k1 k2 (Vector.replicate 16 0) m

end Xeneva.Base.Aes
