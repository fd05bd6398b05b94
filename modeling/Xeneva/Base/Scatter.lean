import Xeneva.Base.Ring

/-!
# Extents of an address space
-/

namespace Xeneva.Base

/-- The addresses from `base` on, `size` of them. -/
structure Extent where
  base : ℕ
  size : ℕ
deriving DecidableEq

namespace Extent

def set (e : Extent) : Set ℕ := Set.Ico e.base (e.base + e.size)

variable {a b c : Extent}

/-- No address is in both. -/
def Apart (a b : Extent) : Prop := Disjoint a.set b.set

theorem apart_iff : Apart a b ↔
    a.size = 0 ∨ b.size = 0 ∨ a.base + a.size ≤ b.base ∨ b.base + b.size ≤ a.base := by
  unfold Apart set
  rw [Set.Ico_disjoint_Ico]
  omega

theorem Apart.symm (h : Apart a b) : Apart b a := Disjoint.symm h

/-- A part of an extent. -/
theorem Apart.mono (h : Apart a b) (hc : c.set ⊆ a.set) : Apart c b := Set.disjoint_of_subset_left hc h

theorem sub_of_le (h : a.base ≤ c.base) (h' : c.base + c.size ≤ a.base + a.size) :
    c.set ⊆ a.set := by
  intro x hx
  exact ⟨h.trans hx.1, hx.2.trans_le h'⟩

theorem apart_empty (h : a.size = 0) : Apart a b := apart_iff.mpr (.inl h)

theorem Apart.not_mem (h : Apart a b) {x : ℕ} (hx : x ∈ a.set) : x ∉ b.set :=
  fun hb => Set.disjoint_left.mp h hx hb

/-- Two neighbours as one extent. -/
theorem Apart.join {m : Extent} (ha : Apart a c) (hb : Apart b c)
    (hm : m.set ⊆ a.set ∪ b.set) : Apart m c :=
  Set.disjoint_of_subset_left hm (Set.disjoint_union_left.mpr ⟨ha, hb⟩)

theorem join_sub (hbase : a.base + a.size = b.base) :
    (Extent.mk a.base (a.size + b.size)).set ⊆ a.set ∪ b.set := by
  intro x hx
  unfold set at *
  simp only [Set.mem_union, Set.mem_Ico] at *
  omega

end Extent

end Xeneva.Base

/-!
# A text over scattered memory

Several extents of memory, one after the other, are read as one list. Writing a part of one
extent is writing a part of the list.
-/

namespace Xeneva.Base

variable {α : Type*} {b b' : ℕ → α} {d k n : ℕ} {l s src : List α} {e : Extent}
  {es : List Extent}

/-- The list with a text put over it from place `k` on. -/
def blit (l : List α) (k : ℕ) (src : List α) : List α :=
  l.take k ++ src ++ l.drop (k + src.length)

@[simp] theorem blit_nil (l : List α) (k : ℕ) : blit l k [] = l := by
  simp [blit]

theorem blit_length (h : k + src.length ≤ l.length) : (blit l k src).length = l.length := by
  unfold blit
  simp only [List.length_append, List.length_take, List.length_drop]
  omega

theorem blit_behind (h : s.length ≤ k) :
    blit (s ++ l) k src = s ++ blit l (k - s.length) src := by
  unfold blit
  rw [List.take_append, List.take_of_length_le h, List.drop_append,
    List.drop_of_length_le (by omega), List.nil_append, List.append_assoc, List.append_assoc,
    List.append_assoc]
  congr 3
  congr 1
  omega

theorem blit_before (h : k + src.length ≤ s.length) :
    blit (s ++ l) k src = blit s k src ++ l := by
  unfold blit
  rw [List.take_append_of_le_length (by omega), List.drop_append_of_le_length h,
    List.append_assoc, List.append_assoc, List.append_assoc]

/-- A text that runs over the end of the first list. -/
theorem blit_split (hk : k ≤ s.length) (h : s.length ≤ k + src.length) :
    blit (s ++ l) k src =
      blit s k (src.take (s.length - k)) ++ blit l 0 (src.drop (s.length - k)) := by
  have hlen : (src.take (s.length - k)).length = s.length - k := by
    rw [List.length_take]
    omega
  unfold blit
  rw [hlen, List.length_drop, List.take_append_of_le_length hk, List.take_zero, List.nil_append,
    List.drop_append, List.drop_of_length_le h, List.nil_append,
    List.drop_of_length_le (show s.length ≤ k + (s.length - k) by omega), List.append_nil,
    List.append_assoc, List.append_assoc, ← List.append_assoc (src.take _),
    List.take_append_drop]
  congr 3
  omega

theorem blit_getElem? (h : k + src.length ≤ l.length) (i : ℕ) :
    (blit l k src)[i]? = if k ≤ i ∧ i < k + src.length then src[i - k]? else l[i]? := by
  unfold blit
  rw [List.append_assoc, List.getElem?_append, List.getElem?_append, List.getElem?_take,
    List.getElem?_drop, List.length_take]
  by_cases hlt : i < k
  · rw [if_pos (by omega), if_pos hlt, if_neg (by omega)]
  · rw [if_neg (by omega), Nat.min_eq_left (by omega)]
    by_cases hin : i < k + src.length
    · rw [if_pos (by omega), if_pos ⟨by omega, hin⟩]
    · rw [if_neg (by omega), if_neg (by omega)]
      congr 1
      omega

theorem memread_getElem? (b : ℕ → α) (d n i : ℕ) :
    (memread b d n)[i]? = if i < n then some (b (d + i)) else none := by
  unfold memread
  rw [List.getElem?_map]
  split_ifs with hi
  · rw [List.getElem?_range hi]
    rfl
  · rw [List.getElem?_eq_none (by rw [List.length_range]; omega)]
    rfl

/-- Writing a part of an extent. -/
theorem memread_memcpy (h : k + src.length ≤ n) :
    memread (memcpy b (d + k) src) d n = blit (memread b d n) k src := by
  apply List.ext_getElem?
  intro i
  rw [blit_getElem? (by rw [memread_length]; exact h), memread_getElem?, memread_getElem?]
  by_cases hi : i < n
  · rw [if_pos hi]
    by_cases hin : k ≤ i ∧ i < k + src.length
    · obtain ⟨j, rfl⟩ := Nat.exists_eq_add_of_le hin.1
      have hj : j < src.length := by omega
      rw [if_pos hin, ← Nat.add_assoc, memcpy_get b (d + k) src hj, Nat.add_sub_cancel_left,
        List.getElem?_eq_getElem hj]
    · rw [if_neg hin, if_pos hi]
      by_cases hlt : i < k
      · rw [memcpy_of_lt _ _ (by omega)]
      · rw [memcpy_of_ge _ _ (by omega)]
  · rw [if_neg hi, if_neg (by omega), if_neg hi]

theorem memread_congr (h : ∀ a ∈ e.set, b a = b' a) :
    memread b e.base e.size = memread b' e.base e.size := by
  apply List.map_congr_left
  intro i hi
  rw [List.mem_range] at hi
  apply h
  exact ⟨Nat.le_add_right _ _, Nat.add_lt_add_left hi _⟩

/-- The extents, one after the other. -/
def image (b : ℕ → α) (es : List Extent) : List α :=
  es.flatMap fun e => memread b e.base e.size

def capacity (es : List Extent) : ℕ := (es.map Extent.size).sum

theorem image_cons (b : ℕ → α) (e : Extent) (es : List Extent) :
    image b (e :: es) = memread b e.base e.size ++ image b es := List.flatMap_cons

theorem capacity_cons (e : Extent) (es : List Extent) :
    capacity (e :: es) = e.size + capacity es := List.sum_cons

theorem image_length (b : ℕ → α) (es : List Extent) : (image b es).length = capacity es := by
  induction es with
  | nil => rfl
  | cons e es ih => rw [image_cons, capacity_cons, List.length_append, memread_length, ih]

theorem image_congr (h : ∀ e ∈ es, ∀ a ∈ e.set, b a = b' a) : image b es = image b' es := by
  induction es with
  | nil => rfl
  | cons e es ih =>
    rw [image_cons, image_cons, memread_congr (h e List.mem_cons_self),
      ih fun e' he' => h e' (List.mem_cons_of_mem e he')]

/-- What a copy into a part of an extent leaves alone. -/
theorem memcpy_outside (h : k + src.length ≤ e.size) {a : ℕ} (ha : a ∉ e.set) :
    memcpy b (e.base + k) src a = b a := by
  have hout : a < e.base ∨ e.base + e.size ≤ a := by
    by_contra hc
    apply ha
    constructor <;> omega
  rcases hout with hlt | hge
  · exact memcpy_of_lt _ _ (by omega)
  · exact memcpy_of_ge _ _ (by omega)

end Xeneva.Base
