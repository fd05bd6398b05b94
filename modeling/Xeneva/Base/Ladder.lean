import Mathlib

/-!
# Square and multiply

A fold over the bits of a number, the most significant first, and what one step must do to a
value that the number so far says. Powers modulo a number are one such fold, and with them a
certificate of primality is checked.
-/

namespace Xeneva.Base.Ladder

/-- The number that the bits say, the most significant first. -/
def value (bits : List Bool) : ℕ := bits.foldl (fun n b => 2 * n + b.toNat) 0

/-- What holds of the number so far at every step holds of the whole number. -/
theorem foldl_value {S : Type*} {step : S → Bool → S} {R : S → ℕ → Prop}
    (h : ∀ s n b, R s n → R (step s b) (2 * n + b.toNat)) {s : S} (h₀ : R s 0) (bits : List Bool) :
    R (bits.foldl step s) (value bits) := by
  have hgen : ∀ n s, R s n →
      R (bits.foldl step s) (bits.foldl (fun n b => 2 * n + b.toNat) n) := by
    induction bits with
    | nil =>
      intro n s hs
      exact hs
    | cons b bits ih =>
      intro n s hs
      exact ih (2 * n + b.toNat) (step s b) (h s n b hs)
  exact hgen 0 s h₀

/-- The low bits of a number, the most significant first. -/
def lowBits (n : ℕ) : ℕ → List Bool
  | 0 => []
  | k + 1 => n.testBit k :: lowBits n k

theorem value_append (as bs : List Bool) :
    value (as ++ bs) = value as * 2 ^ bs.length + value bs := by
  have hgen : ∀ n, bs.foldl (fun n b => 2 * n + b.toNat) n = n * 2 ^ bs.length + value bs := by
    intro n
    induction bs generalizing n with
    | nil => simp [value]
    | cons b bs ih =>
      unfold value
      rw [List.foldl_cons, List.foldl_cons, ih, ih (2 * 0 + b.toNat), List.length_cons, pow_succ]
      ring
  unfold value
  rw [List.foldl_append, hgen]
  rfl

theorem length_lowBits (n k : ℕ) : (lowBits n k).length = k := by
  induction k with
  | zero => rfl
  | succ k ih => rw [lowBits, List.length_cons, ih]

theorem value_lowBits (n k : ℕ) : value (lowBits n k) = n % 2 ^ k := by
  induction k with
  | zero => simp [lowBits, value, Nat.mod_one]
  | succ k ih =>
    have hbit : value [n.testBit k] = (n.testBit k).toNat := Nat.zero_add _
    rw [lowBits, ← List.singleton_append, value_append, length_lowBits, ih, hbit,
      Nat.mod_pow_succ, Nat.toNat_testBit]
    ring

/-- The power of `a` modulo `m` whose exponent the bits say. -/
def powMod (m a : ℕ) (bits : List Bool) : ℕ :=
  bits.foldl (fun r b => if b then r * r % m * a % m else r * r % m) (1 % m)

theorem powMod_eq (m a : ℕ) (bits : List Bool) : powMod m a bits = a ^ value bits % m := by
  apply foldl_value (R := fun r n => r = a ^ n % m)
  · intro r n b hr
    have hsq : r * r % m = a ^ (2 * n) % m := by
      rw [hr, ← Nat.mul_mod, ← pow_add, two_mul]
    cases b with
    | false => simpa using hsq
    | true =>
      change r * r % m * a % m = a ^ (2 * n + 1) % m
      rw [hsq, Nat.mod_mul_mod, pow_succ]
  · rw [pow_zero]

theorem zmod_pow_eq_one_iff {m : ℕ} (hm : 1 < m) (a n : ℕ) :
    (a : ZMod m) ^ n = 1 ↔ a ^ n % m = 1 := by
  rw [← Nat.cast_pow, ← Nat.cast_one, ZMod.natCast_eq_natCast_iff', Nat.mod_eq_of_lt hm]

/-- Below `2 ^ k`, the powers of `a` show that `m` is prime if the factors of `m - 1` are. -/
def certified (k m a : ℕ) (factors : List ℕ) : Bool :=
  1 < m ∧ m < 2 ^ k ∧ factors.prod ^ k % (m - 1) = 0 ∧ powMod m a (lowBits (m - 1) k) = 1 ∧
    ∀ q ∈ factors, powMod m a (lowBits ((m - 1) / q) k) ≠ 1

theorem prime_of_certified (k a : ℕ) (factors : List ℕ) {m : ℕ} (hf : ∀ q ∈ factors, q.Prime)
    (h : certified k m a factors) : m.Prime := by
  obtain ⟨h1, hk, hprod, hone, hne⟩ := of_decide_eq_true h
  have hpow : ∀ n, n < 2 ^ k → powMod m a (lowBits n k) = a ^ n % m := by
    intro n hn
    rw [powMod_eq, value_lowBits, Nat.mod_eq_of_lt hn]
  apply lucas_primality m a
  · rw [zmod_pow_eq_one_iff h1, ← hpow _ (by omega)]
    exact hone
  · intro q hq hdvd
    -- a prime factor of `m - 1` is one of the factors
    have hdvd' : q ∣ factors.prod :=
      hq.dvd_of_dvd_pow (hdvd.trans (Nat.dvd_of_mod_eq_zero hprod))
    obtain ⟨f, hfm, hqf⟩ := (Prime.dvd_prod_iff hq.prime).mp hdvd'
    have hqf' : q = f := (Nat.prime_dvd_prime_iff_eq hq (hf f hfm)).mp hqf
    rw [ne_eq, zmod_pow_eq_one_iff h1, ← hpow _ (Nat.lt_of_le_of_lt (Nat.div_le_self _ q) (by omega))]
    exact hne q (hqf' ▸ hfm)

end Xeneva.Base.Ladder
