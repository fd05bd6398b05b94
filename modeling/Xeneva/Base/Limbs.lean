import Mathlib

/-!
# Numbers of several words

Lists of 32-bit words as numbers, the least significant word first, and the loops over them: sum,
difference, comparison, product and single bits.
-/

namespace Xeneva.Base.Limbs

/-- The number that the words stand for. -/
def val : List UInt32 → ℕ
  | [] => 0
  | w :: ws => w.toNat + 2 ^ 32 * val ws

@[simp] theorem val_nil : val [] = 0 := rfl

@[simp] theorem val_cons (w : UInt32) (ws : List UInt32) :
    val (w :: ws) = w.toNat + 2 ^ 32 * val ws := rfl

variable {as bs ws lo : List UInt32} {a b w : UInt32} {c n k : ℕ}

theorem toNat_ofNat_add (c : ℕ) : (UInt32.ofNat c).toNat + 2 ^ 32 * (c / 2 ^ 32) = c := by
  rw [UInt32.toNat_ofNat']
  exact Nat.mod_add_div c (2 ^ 32)

theorem val_lt (ws : List UInt32) : val ws < 2 ^ (32 * ws.length) := by
  induction ws with
  | nil => exact Nat.one_pos
  | cons w ws ih =>
    have hw := w.toNat_lt
    rw [val_cons, List.length_cons, show 32 * (ws.length + 1) = 32 + 32 * ws.length by ring,
      Nat.pow_add]
    omega

theorem val_append (as bs : List UInt32) :
    val (as ++ bs) = val as + 2 ^ (32 * as.length) * val bs := by
  induction as with
  | nil => simp
  | cons a as ih =>
    rw [List.cons_append, val_cons, val_cons, ih, List.length_cons,
      show 32 * (as.length + 1) = 32 + 32 * as.length by ring, Nat.pow_add]
    ring

@[simp] theorem val_zeros (n : ℕ) : val (List.replicate n 0) = 0 := by
  induction n with
  | zero => rfl
  | succ n ih => rw [List.replicate_succ, val_cons, ih]; rfl

theorem val_eq_zero_iff : val ws = 0 ↔ ∀ w ∈ ws, w = 0 := by
  induction ws with
  | nil => simp
  | cons w ws ih =>
    rw [val_cons, List.forall_mem_cons, ← ih, ← UInt32.toNat_inj]
    change _ ↔ w.toNat = 0 ∧ _
    omega

/-! ## Sums and differences -/

/-- The sum with a carry, and the carry that is left. -/
def add : ℕ → List UInt32 → List UInt32 → List UInt32 × ℕ
  | c, a :: as, b :: bs =>
    let s := c + (a.toNat + b.toNat)
    (UInt32.ofNat s :: (add (s / 2 ^ 32) as bs).1, (add (s / 2 ^ 32) as bs).2)
  | c, _, _ => ([], c)

@[simp] theorem length_add (c : ℕ) (as bs : List UInt32) :
    (add c as bs).1.length = min as.length bs.length := by
  induction as generalizing bs c with
  | nil => simp [add]
  | cons a as ih =>
    cases bs with
    | nil => simp [add]
    | cons b bs => simp [add, ih, Nat.add_min_add_right]

theorem add_val (h : as.length = bs.length) (c : ℕ) :
    val (add c as bs).1 + 2 ^ (32 * as.length) * (add c as bs).2 = c + val as + val bs := by
  induction as generalizing bs c with
  | nil =>
    cases bs with
    | nil => simp [add]
    | cons b bs => simp at h
  | cons a as ih =>
    cases bs with
    | nil => simp at h
    | cons b bs =>
      have hrec := ih (Nat.succ.inj h) ((c + (a.toNat + b.toNat)) / 2 ^ 32)
      have hs := toNat_ofNat_add (c + (a.toNat + b.toNat))
      rw [List.length_cons, show 32 * (as.length + 1) = 32 + 32 * as.length by ring, Nat.pow_add]
      simp only [add, val_cons]
      calc _ = (UInt32.ofNat (c + (a.toNat + b.toNat))).toNat + 2 ^ 32 *
            (val (add ((c + (a.toNat + b.toNat)) / 2 ^ 32) as bs).1 + 2 ^ (32 * as.length) *
              (add ((c + (a.toNat + b.toNat)) / 2 ^ 32) as bs).2) := by ring
        _ = c + (a.toNat + b.toNat) + 2 ^ 32 * (val as + val bs) := by rw [hrec]; omega
        _ = _ := by ring

/-- The difference with a borrow, which is zero or minus one, and the borrow that is left. -/
def sub : Int → List UInt32 → List UInt32 → List UInt32 × Int
  | c, a :: as, b :: bs =>
    let s := c + ((a.toNat : Int) - b.toNat)
    (UInt32.ofNat (s % 2 ^ 32).toNat :: (sub (s / 2 ^ 32) as bs).1, (sub (s / 2 ^ 32) as bs).2)
  | c, _, _ => ([], c)

@[simp] theorem length_sub (c : Int) (as bs : List UInt32) :
    (sub c as bs).1.length = min as.length bs.length := by
  induction as generalizing bs c with
  | nil => simp [sub]
  | cons a as ih =>
    cases bs with
    | nil => simp [sub]
    | cons b bs => simp [sub, ih, Nat.add_min_add_right]

theorem toNat_ofNat_emod (s : Int) :
    ((UInt32.ofNat (s % 2 ^ 32).toNat).toNat : Int) + 2 ^ 32 * (s / 2 ^ 32) = s := by
  rw [UInt32.toNat_ofNat']
  omega

theorem sub_val (h : as.length = bs.length) (c : Int) :
    (val (sub c as bs).1 : Int) + 2 ^ (32 * as.length) * (sub c as bs).2 =
      c + val as - val bs := by
  induction as generalizing bs c with
  | nil =>
    cases bs with
    | nil => simp [sub]
    | cons b bs => simp at h
  | cons a as ih =>
    cases bs with
    | nil => simp at h
    | cons b bs =>
      have hrec := ih (Nat.succ.inj h) ((c + ((a.toNat : Int) - b.toNat)) / 2 ^ 32)
      have hs := toNat_ofNat_emod (c + ((a.toNat : Int) - b.toNat))
      rw [List.length_cons, show 32 * (as.length + 1) = 32 + 32 * as.length by ring, pow_add]
      simp only [sub, val_cons, Nat.cast_add, Nat.cast_mul, Nat.cast_pow, Nat.cast_ofNat]
      calc _ = ((UInt32.ofNat ((c + ((a.toNat : Int) - b.toNat)) % 2 ^ 32).toNat).toNat : Int) +
            2 ^ 32 * ((val (sub ((c + ((a.toNat : Int) - b.toNat)) / 2 ^ 32) as bs).1 : Int) +
              2 ^ (32 * as.length) * (sub ((c + ((a.toNat : Int) - b.toNat)) / 2 ^ 32) as bs).2) := by
              ring
        _ = c + ((a.toNat : Int) - b.toNat) + 2 ^ 32 * ((val as : Int) - val bs) := by
              rw [hrec]; omega
        _ = _ := by ring

/-- A difference that is not negative. -/
theorem sub_of_le (h : as.length = bs.length) (hle : val bs ≤ val as) :
    val (sub 0 as bs).1 = val as - val bs := by
  have hs := sub_val h 0
  have hlt := val_lt (sub 0 as bs).1
  have has := val_lt as
  rw [length_sub, ← h, Nat.min_self] at hlt
  generalize hm : 2 ^ (32 * as.length) = m at hlt has
  have hm' : (2 : Int) ^ (32 * as.length) = m := by rw [← hm]; push_cast; rfl
  rw [hm'] at hs
  have hzero : (sub 0 as bs).2 = 0 := by
    by_contra hne
    rcases Int.lt_or_gt_of_ne hne with hneg | hpos
    · have : (m : Int) * (sub 0 as bs).2 ≤ m * (-1) :=
        Int.mul_le_mul_of_nonneg_left (by omega) (by omega)
      omega
    · have : (m : Int) * 1 ≤ m * (sub 0 as bs).2 :=
        Int.mul_le_mul_of_nonneg_left (by omega) (by omega)
      omega
  rw [hzero] at hs
  omega

/-- A difference that is negative wraps around. -/
theorem sub_of_lt (h : as.length = bs.length) (hlt' : val as < val bs) :
    val (sub 0 as bs).1 + val bs = val as + 2 ^ (32 * as.length) := by
  have hs := sub_val h 0
  have hlt := val_lt (sub 0 as bs).1
  have hbs := val_lt bs
  rw [length_sub, ← h, Nat.min_self] at hlt
  rw [← h] at hbs
  generalize hm : 2 ^ (32 * as.length) = m at hlt hbs ⊢
  have hm' : (2 : Int) ^ (32 * as.length) = m := by rw [← hm]; push_cast; rfl
  rw [hm'] at hs
  have hone : (sub 0 as bs).2 = -1 := by
    by_contra hne
    rcases Int.lt_or_gt_of_ne hne with hneg | hpos
    · have : (m : Int) * (sub 0 as bs).2 ≤ m * (-2) :=
        Int.mul_le_mul_of_nonneg_left (by omega) (by omega)
      omega
    · have : (m : Int) * 0 ≤ m * (sub 0 as bs).2 :=
        Int.mul_le_mul_of_nonneg_left (by omega) (by omega)
      omega
  rw [hone] at hs
  omega

/-- The comparison from the most significant word down. -/
def wordCmp : List UInt32 → List UInt32 → Ordering
  | a :: as, b :: bs =>
    match wordCmp as bs with
    | .eq => compare a.toNat b.toNat
    | o => o
  | _, _ => .eq

theorem compare_add_right (m n k : ℕ) : compare (m + k) (n + k) = compare m n := by
  apply (Nat.lt_trichotomy m n).elim
  · intro hlt
    rw [Nat.compare_eq_lt.mpr hlt, Nat.compare_eq_lt.mpr (by omega)]
  intro h
  apply h.elim
  · intro heq
    rw [heq, Nat.compare_eq_eq.mpr rfl, Nat.compare_eq_eq.mpr rfl]
  · intro hgt
    rw [Nat.compare_eq_gt.mpr hgt, Nat.compare_eq_gt.mpr (by omega)]

theorem wordCmp_eq (h : as.length = bs.length) : wordCmp as bs = compare (val as) (val bs) := by
  induction as generalizing bs with
  | nil =>
    cases bs with
    | nil => rfl
    | cons b bs => simp at h
  | cons a as ih =>
    cases bs with
    | nil => simp at h
    | cons b bs =>
      have ha := a.toNat_lt
      have hb := b.toNat_lt
      unfold wordCmp
      rw [ih (Nat.succ.inj h), val_cons, val_cons]
      apply (Nat.lt_trichotomy (val as) (val bs)).elim
      · intro hlt
        rw [Nat.compare_eq_lt.mpr hlt]
        exact (Nat.compare_eq_lt.mpr (by omega)).symm
      intro h
      apply h.elim
      · intro heq
        rw [heq, Nat.compare_eq_eq.mpr rfl]
        exact (compare_add_right a.toNat b.toNat _).symm
      · intro hgt
        rw [Nat.compare_eq_gt.mpr hgt]
        exact (Nat.compare_eq_gt.mpr (by omega)).symm

/-- Adds `a` times the words to the number, and stores the carry behind them. -/
def mulRow (a : UInt32) : ℕ → List UInt32 → List UInt32 → List UInt32
  | c, b :: bs, w :: ws =>
    let s := c + (w.toNat + a.toNat * b.toNat)
    UInt32.ofNat s :: mulRow a (s / 2 ^ 32) bs ws
  | c, [], _ :: ws => UInt32.ofNat c :: ws
  | _, _, [] => []

theorem mulRow_spec (a : UInt32) (hc : c < 2 ^ 32) (h : lo.length = bs.length) (ws : List UInt32) :
    ∃ r, mulRow a c bs (lo ++ 0 :: ws) = r ++ ws ∧ r.length = lo.length + 1 ∧
      val r = c + a.toNat * val bs + val lo := by
  induction bs generalizing lo c with
  | nil =>
    have hlo : lo = [] := List.length_eq_zero_iff.mp h
    refine ⟨[UInt32.ofNat c], ?_, ?_, ?_⟩
    · rw [hlo]
      rfl
    · rw [hlo]
      rfl
    · rw [hlo, val_cons, UInt32.toNat_ofNat', Nat.mod_eq_of_lt hc]
      simp
  | cons b bs ih =>
    cases lo with
    | nil => simp at h
    | cons w lo =>
      have ha := a.toNat_lt
      have hb := b.toNat_lt
      have hw := w.toNat_lt
      have hab : a.toNat * b.toNat ≤ (2 ^ 32 - 1) * (2 ^ 32 - 1) :=
        Nat.mul_le_mul (by omega) (by omega)
      have hs := toNat_ofNat_add (c + (w.toNat + a.toNat * b.toNat))
      have hcarry : (c + (w.toNat + a.toNat * b.toNat)) / 2 ^ 32 < 2 ^ 32 := by omega
      obtain ⟨r, hr, hlen, hval⟩ := ih hcarry (Nat.succ.inj h)
      refine ⟨UInt32.ofNat (c + (w.toNat + a.toNat * b.toNat)) :: r, ?_, ?_, ?_⟩
      · rw [List.cons_append, List.cons_append, ← hr]
        rfl
      · rw [List.length_cons, hlen, List.length_cons]
      · rw [val_cons, val_cons, val_cons, hval]
        calc _ = (UInt32.ofNat (c + (w.toNat + a.toNat * b.toNat))).toNat + 2 ^ 32 *
              ((c + (w.toNat + a.toNat * b.toNat)) / 2 ^ 32) + 2 ^ 32 *
                (a.toNat * val bs + val lo) := by ring
          _ = _ := by rw [hs]; ring

/-- One row for each word of the first factor, each a word further. -/
def mulRows : List UInt32 → List UInt32 → List UInt32 → List UInt32
  | a :: as, bs, ws =>
    match mulRow a 0 bs ws with
    | [] => []
    | w :: ws => w :: mulRows as bs ws
  | [], _, ws => ws

theorem mulRows_spec (as lo : List UInt32) (h : lo.length = bs.length) :
    (mulRows as bs (lo ++ List.replicate as.length 0)).length = lo.length + as.length ∧
      val (mulRows as bs (lo ++ List.replicate as.length 0)) = val as * val bs + val lo := by
  induction as generalizing lo with
  | nil => simp [mulRows]
  | cons a as ih =>
    obtain ⟨r, hr, hlen, hval⟩ := mulRow_spec a (Nat.two_pow_pos 32) h (List.replicate as.length 0)
    cases r with
    | nil => simp at hlen
    | cons w r =>
      obtain ⟨hl, hv⟩ := ih r (by rw [← h]; exact Nat.succ.inj hlen)
      unfold mulRows
      rw [List.length_cons, List.replicate_succ, hr]
      dsimp only [List.cons_append]
      rw [val_cons] at hval
      constructor
      · rw [List.length_cons, hl, Nat.succ.inj hlen]
        omega
      · rw [val_cons, val_cons, hv]
        calc _ = w.toNat + 2 ^ 32 * val r + 2 ^ 32 * (val as * val bs) := by ring
          _ = _ := by rw [hval]; ring

/-- The bit at an index. -/
def bit (ws : List UInt32) (k : ℕ) : Bool := (ws.getD (k / 32) 0).toNat.testBit (k % 32)

theorem testBit_val (ws : List UInt32) (k : ℕ) : (val ws).testBit k = bit ws k := by
  unfold bit
  induction ws generalizing k with
  | nil => simp
  | cons w ws ih =>
    rw [val_cons, Nat.add_comm, Nat.testBit_two_pow_mul_add (val ws) w.toNat_lt]
    by_cases hk : k < 32
    · rw [if_pos hk, Nat.div_eq_of_lt hk, Nat.mod_eq_of_lt hk]
      rfl
    · rw [if_neg hk, ih, show k / 32 = (k - 32) / 32 + 1 by omega,
        show (k - 32) % 32 = k % 32 by omega]
      rfl

/-- The words with a bit set. -/
def setBit (ws : List UInt32) (k : ℕ) : List UInt32 :=
  ws.set (k / 32) (ws.getD (k / 32) 0 ||| UInt32.ofNat (2 ^ (k % 32)))

@[simp] theorem length_setBit (ws : List UInt32) (k : ℕ) : (setBit ws k).length = ws.length :=
  List.length_set ..

theorem bit_setBit (hk : k < 32 * ws.length) (n : ℕ) :
    bit (setBit ws k) n = (bit ws n || decide (n = k)) := by
  have hi : k / 32 < ws.length := by omega
  have hbit : 2 ^ (k % 32) < 2 ^ 32 := Nat.pow_lt_pow_right (by decide) (by omega)
  unfold bit setBit
  by_cases hn : n / 32 = k / 32
  · rw [hn, List.getD_eq_getElem _ 0 (by rwa [List.length_set]), List.getElem_set_self,
      UInt32.toNat_or, Nat.testBit_or, UInt32.toNat_ofNat', Nat.mod_eq_of_lt hbit,
      Nat.testBit_two_pow]
    congr 1
    apply decide_eq_decide.mpr
    omega
  · rw [List.getD_eq_getElem?_getD, List.getElem?_set_ne (Ne.symm hn), ← List.getD_eq_getElem?_getD,
      decide_eq_false (by intro h; exact hn (by rw [h])), Bool.or_false]

end Xeneva.Base.Limbs
