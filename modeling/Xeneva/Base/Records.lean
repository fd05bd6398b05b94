import Mathlib

/-!
# Maps as lists

A list of pairs that has every entry of a partial map once.
-/

namespace Xeneva.Base

open Function

variable {κ α : Type*} [DecidableEq κ] {l a b : List (κ × α)} {m : κ → Option α} {k : κ} {v : α}

structure Listed (l : List (κ × α)) (m : κ → Option α) : Prop where
  nodup : (l.map Prod.fst).Nodup
  mem : ∀ k v, m k = some v ↔ (k, v) ∈ l

omit [DecidableEq κ] in
theorem Listed.key_mem (h : Listed l m) (k : κ) : k ∈ l.map Prod.fst ↔ m k ≠ none := by
  rw [List.mem_map, ← Option.isSome_iff_ne_none, Option.isSome_iff_exists]
  constructor
  · rintro ⟨⟨k', v⟩, hv, rfl⟩
    exact ⟨v, (h.mem _ v).2 hv⟩
  · rintro ⟨v, hv⟩
    exact ⟨(k, v), (h.mem k v).1 hv, rfl⟩

theorem Listed.insert (h : Listed (a ++ b) m) (hk : m k = none) :
    Listed (a ++ (k, v) :: b) (update m k (some v)) := by
  have hperm : (a ++ (k, v) :: b).Perm ((k, v) :: (a ++ b)) := List.perm_middle
  refine ⟨?_, fun k' v' => ?_⟩
  · rw [(hperm.map Prod.fst).nodup_iff, List.map_cons, List.nodup_cons]
    refine ⟨fun hmem => ?_, h.nodup⟩
    exact (h.key_mem k).1 hmem hk
  · rw [hperm.mem_iff, List.mem_cons, Prod.mk.injEq]
    by_cases hk' : k' = k
    · subst hk'
      rw [update_self, Option.some.injEq]
      constructor
      · intro hv
        exact .inl ⟨rfl, hv.symm⟩
      · rintro (⟨-, hv⟩ | hv)
        · exact hv.symm
        · rw [← h.mem, hk] at hv
          cases hv
    · rw [update_of_ne hk', h.mem]
      constructor
      · exact .inr
      · rintro (⟨hk'', -⟩ | hv)
        · exact absurd hk'' hk'
        · exact hv

theorem Listed.erase (h : Listed (a ++ (k, v) :: b) m) : Listed (a ++ b) (update m k none) := by
  have hperm : (a ++ (k, v) :: b).Perm ((k, v) :: (a ++ b)) := List.perm_middle
  have hnodup := h.nodup
  rw [(hperm.map Prod.fst).nodup_iff, List.map_cons, List.nodup_cons] at hnodup
  refine ⟨hnodup.2, fun k' v' => ?_⟩
  by_cases hk' : k' = k
  · subst hk'
    rw [update_self]
    constructor
    · intro hv
      cases hv
    · intro hv
      exact absurd (List.mem_map_of_mem (f := Prod.fst) hv) hnodup.1
  · rw [update_of_ne hk', h.mem, hperm.mem_iff, List.mem_cons, Prod.mk.injEq]
    constructor
    · rintro (⟨hk'', -⟩ | hv)
      · exact absurd hk'' hk'
      · exact hv
    · exact .inr

end Xeneva.Base

/-!
# Numbers in a buffer

Numbers of several bytes, the lowest first.
-/

namespace Xeneva.Base

def getLe (b : ℕ → UInt8) (o : ℕ) : ℕ → ℕ
  | 0 => 0
  | n + 1 => (b o).toNat + 256 * getLe b (o + 1) n

def putLe (b : ℕ → UInt8) (o n v : ℕ) : ℕ → UInt8 := fun p =>
  if o ≤ p ∧ p < o + n then UInt8.ofNat (v / 256 ^ (p - o) % 256) else b p

def putBytes (b : ℕ → UInt8) (o : ℕ) (l : List UInt8) : ℕ → UInt8 := fun p =>
  if o ≤ p ∧ p < o + l.length then l.getD (p - o) 0 else b p

variable {b c : ℕ → UInt8} {o n v p : ℕ} {l : List UInt8}

theorem getLe_congr (h : ∀ p, o ≤ p → p < o + n → b p = c p) : getLe b o n = getLe c o n := by
  induction n generalizing o with
  | zero => rfl
  | succ n ih =>
    rw [getLe, getLe, h o le_rfl (by omega), ih fun p hp hp' => h p (by omega) (by omega)]

theorem putLe_of_ne (h : p < o ∨ o + n ≤ p) : putLe b o n v p = b p := by
  rw [putLe, if_neg (by omega)]

theorem putBytes_of_ne (h : p < o ∨ o + l.length ≤ p) : putBytes b o l p = b p := by
  rw [putBytes, if_neg (by omega)]

theorem getLe_putLe (b : ℕ → UInt8) (o n v : ℕ) : getLe (putLe b o n v) o n = v % 256 ^ n := by
  induction n generalizing b o v with
  | zero => rw [getLe, pow_zero, Nat.mod_one]
  | succ n ih =>
    have hhead : putLe b o (n + 1) v o = UInt8.ofNat (v % 256) := by
      rw [putLe, if_pos (by omega), Nat.sub_self, pow_zero, Nat.div_one]
    have htail : getLe (putLe b o (n + 1) v) (o + 1) n =
        getLe (putLe b (o + 1) n (v / 256)) (o + 1) n := by
      apply getLe_congr
      intro p hp hp'
      have hsub : p - o = p - (o + 1) + 1 := by omega
      rw [putLe, putLe, if_pos (by omega), if_pos (by omega), hsub, pow_succ',
        Nat.div_div_eq_div_mul]
    rw [getLe, hhead, htail, ih, UInt8.toNat_ofNat', Nat.mod_mod, pow_succ', Nat.mod_mul]

end Xeneva.Base

/-!
# Records of a buffer

A part of a buffer is tiled by records that lie one behind the other, each with its own length.
`rd` reads the record that begins at a place, and looks at the bytes of this record only.
-/

namespace Xeneva.Base

variable {β R : Type*} {rd : (ℕ → β) → ℕ → R} {len : R → ℕ} {ok : R → Prop}

def Records (rd : (ℕ → β) → ℕ → R) (len : R → ℕ) (ok : R → Prop) (b : ℕ → β) :
    ℕ → List R → ℕ → Prop
  | p, [], e => p = e
  | p, r :: rs, e => rd b p = r ∧ ok r ∧ Records rd len ok b (p + len r) rs e

/-- A good record is not empty, and its bytes make it. -/
structure Local (rd : (ℕ → β) → ℕ → R) (len : R → ℕ) (ok : R → Prop) : Prop where
  pos : ∀ r, ok r → 0 < len r
  congr : ∀ b c p, ok (rd b p) → (∀ i, p ≤ i → i < p + len (rd b p) → b i = c i) → rd c p = rd b p

variable {b c : ℕ → β} {p m e : ℕ} {xs ys zs rs : List R} {r : R}

theorem records_append : Records rd len ok b p (xs ++ ys) e ↔
    ∃ m, Records rd len ok b p xs m ∧ Records rd len ok b m ys e := by
  induction xs generalizing p with
  | nil =>
    constructor
    · intro h
      exact ⟨p, rfl, h⟩
    · rintro ⟨m, hm, h⟩
      exact (hm : p = m) ▸ h
  | cons x xs ih =>
    constructor
    · rintro ⟨hx, hok, h⟩
      obtain ⟨m, hm, hy⟩ := ih.1 h
      exact ⟨m, ⟨hx, hok, hm⟩, hy⟩
    · rintro ⟨m, ⟨hx, hok, hm⟩, hy⟩
      exact ⟨hx, hok, ih.2 ⟨m, hm, hy⟩⟩

theorem Records.le (h : Records rd len ok b p rs e) : p ≤ e := by
  induction rs generalizing p with
  | nil => exact le_of_eq h
  | cons r rs ih => exact (Nat.le_add_right p _).trans (ih h.2.2)

/-- There is a byte at least for every record. -/
theorem Records.length_le (hl : Local rd len ok) (h : Records rd len ok b p rs e) :
    p + rs.length ≤ e := by
  induction rs generalizing p with
  | nil => exact le_of_eq h
  | cons r rs ih =>
    have hi := ih h.2.2
    have hpos := hl.pos r h.2.1
    rw [List.length_cons]
    omega

theorem Records.congr (hl : Local rd len ok) (h : Records rd len ok b p rs e)
    (hb : ∀ i, p ≤ i → i < e → b i = c i) : Records rd len ok c p rs e := by
  induction rs generalizing p with
  | nil => exact h
  | cons r rs ih =>
    obtain ⟨hr, hok, ht⟩ := h
    have hle := ht.le
    refine ⟨?_, hok, ih ht fun i hi => hb i (by omega)⟩
    rw [← hr] at hok hle ⊢
    exact hl.congr b c p hok fun i hi hi' => hb i hi (by omega)

theorem Records.exists_of_mem (h : Records rd len ok b p rs e) (hr : r ∈ rs) :
    ∃ q, rd b q = r := by
  induction rs generalizing p with
  | nil => cases hr
  | cons x rs ih =>
    rcases List.mem_cons.1 hr with rfl | hr
    · exact ⟨p, h.1⟩
    · exact ih h.2.2 hr

/-- Records in the middle are replaced by others that fill their place. -/
theorem Records.replace (hl : Local rd len ok) {m' : ℕ} {ys' : List R}
    (hx : Records rd len ok b p xs m) (hz : Records rd len ok b m' zs e)
    (hy : Records rd len ok c m ys' m') (hc : ∀ i, i < m ∨ m' ≤ i → c i = b i) :
    Records rd len ok c p (xs ++ (ys' ++ zs)) e := by
  refine records_append.2 ⟨m, hx.congr hl fun i _ hi => (hc i (.inl hi)).symm, ?_⟩
  exact records_append.2 ⟨m', hy, hz.congr hl fun i hi _ => (hc i (.inr hi)).symm⟩

/-- A walk from record to record up to the first hit, with the place before it. -/
def scanRecords (e : ℕ) (next : ℕ → ℕ) (hit : ℕ → Bool) : ℕ → Option ℕ → ℕ → Option (Option ℕ × ℕ)
  | 0, _, _ => none
  | n + 1, before, p =>
    if p < e then
      if hit p then some (before, p) else scanRecords e next hit n (some p) (p + next p)
    else none

theorem scanRecords_spec (hl : Local rd len ok) {hit : ℕ → Bool} {H : R → Bool}
    (hhit : ∀ q, ok (rd b q) → hit q = H (rd b q)) {next : ℕ → ℕ}
    (hnext : ∀ q, next q = len (rd b q)) (h : Records rd len ok b p rs e) {n : ℕ}
    (hn : rs.length < n) (before : Option ℕ) :
    (scanRecords e next hit n before p = none ∧ ∀ r ∈ rs, H r = false) ∨
    ∃ xs r ys m, rs = xs ++ r :: ys ∧ H r = true ∧ Records rd len ok b p xs m ∧
      Records rd len ok b m (r :: ys) e ∧
      ((xs = [] ∧ scanRecords e next hit n before p = some (before, m)) ∨
        ∃ ws w l, xs = ws ++ [w] ∧ Records rd len ok b p ws l ∧ Records rd len ok b l [w] m ∧
          scanRecords e next hit n before p = some (some l, m)) := by
  induction rs generalizing p n before with
  | nil =>
    obtain ⟨k, rfl⟩ := Nat.exists_eq_succ_of_ne_zero (Nat.ne_of_gt hn)
    have hp : p = e := h
    left
    rw [scanRecords, if_neg (by omega)]
    exact ⟨rfl, fun r hr => absurd hr List.not_mem_nil⟩
  | cons r rs ih =>
    obtain ⟨k, rfl⟩ := Nat.exists_eq_succ_of_ne_zero (Nat.ne_of_gt (Nat.zero_lt_of_lt hn))
    rw [List.length_cons] at hn
    obtain ⟨hr, hok, ht⟩ := h
    have hpos := hl.pos r hok
    have hle := ht.le
    rw [scanRecords, if_pos (by omega)]
    have hH : hit p = H r := by
      rw [hhit p (hr ▸ hok), hr]
    by_cases hc : H r = true
    · right
      rw [if_pos (hH.trans hc)]
      exact ⟨[], r, rs, p, rfl, hc, rfl, ⟨hr, hok, ht⟩, .inl ⟨rfl, rfl⟩⟩
    · rw [if_neg (by rw [hH]; exact hc), hnext p, hr]
      rcases ih (n := k) ht (by omega) (some p) with
        ⟨hs, hnone⟩ | ⟨xs, r', ys, m, rfl, hr', hx, hy, hs⟩
      · left
        refine ⟨hs, fun x hx => ?_⟩
        rcases List.mem_cons.1 hx with rfl | hx
        · simpa using hc
        · exact hnone x hx
      · right
        refine ⟨r :: xs, r', ys, m, rfl, hr', ⟨hr, hok, hx⟩, hy, .inr ?_⟩
        rcases hs with ⟨rfl, hs⟩ | ⟨ws, w, l, rfl, hw, hl, hs⟩
        · exact ⟨[], r, p, rfl, rfl, ⟨hr, hok, hx⟩, hs⟩
        · exact ⟨r :: ws, w, l, rfl, ⟨hr, hok, hw⟩, hl, hs⟩

end Xeneva.Base
