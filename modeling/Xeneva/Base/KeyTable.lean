import Mathlib

/-!
# Tables of slots with keys

A slot of the table has a key, or is free. A table in which no key stands twice is a map.
-/

namespace Xeneva.Base

variable {α κ : Type*} {key : α → Option κ} {l : List α} {i : ℕ} {x y : α} {k : κ}

/-- No key stands in two slots. -/
def KeysDistinct (key : α → Option κ) (l : List α) : Prop :=
  ∀ (i j : ℕ) x y k, l[i]? = some x → l[j]? = some y → key x = some k → key y = some k → i = j

/-- What the table has under a key. -/
def tableMap [DecidableEq κ] (key : α → Option κ) (l : List α) (k : κ) : Option α :=
  l.find? fun x => key x = some k

/-- The keys of the table, in the order of their slots. -/
def keys (key : α → Option κ) (l : List α) : List κ := l.filterMap key

/-- No other slot than `i` has the key. -/
def OnlyAt (key : α → Option κ) (l : List α) (i : ℕ) (k : κ) : Prop :=
  ∀ (j : ℕ) y, l[j]? = some y → key y = some k → j = i

theorem KeysDistinct.onlyAt (h : KeysDistinct key l) (hi : l[i]? = some x) (hx : key x = some k) :
    OnlyAt key l i k :=
  fun j y hj hy => h j i y x k hj hi hy hx

section Map

variable [DecidableEq κ]

theorem key_of_find? (h : l.find? (fun x => key x = some k) = some x) : key x = some k := by
  have hx := List.find?_some h
  exact of_decide_eq_true hx

theorem tableMap_eq_none : tableMap key l k = none ↔ ∀ x ∈ l, key x ≠ some k := by
  simp [tableMap]

theorem KeysDistinct.tableMap_eq_some (h : KeysDistinct key l) :
    tableMap key l k = some x ↔ key x = some k ∧ ∃ i : ℕ, l[i]? = some x := by
  constructor
  · intro hx
    unfold tableMap at hx
    exact ⟨key_of_find? hx,
      List.mem_iff_getElem?.mp (List.mem_of_find?_eq_some hx)⟩
  · intro ⟨hx, i, hi⟩
    cases hy : tableMap key l k with
    | none => exact absurd hx (tableMap_eq_none.mp hy x (List.mem_of_getElem? hi))
    | some y =>
      unfold tableMap at hy
      obtain ⟨j, hj⟩ := List.mem_iff_getElem?.mp (List.mem_of_find?_eq_some hy)
      have hij := h i j x y k hi hj hx (key_of_find? hy)
      rw [hij, hj] at hi
      exact hi

theorem onlyAt_of_none (h : tableMap key l k = none) (i : ℕ) : OnlyAt key l i k :=
  fun _ y hj hy => absurd hy (tableMap_eq_none.mp h y (List.mem_of_getElem? hj))

/-- Where the slot before and after has no other key than `k`, no other key is affected. -/
theorem KeysDistinct.tableMap_set_ne (h : KeysDistinct key l) (h' : KeysDistinct key (l.set i y))
    (hi : l[i]? = some x) {k' : κ} (hx : key x ≠ some k') (hy : key y ≠ some k') :
    tableMap key (l.set i y) k' = tableMap key l k' := by
  ext z
  rw [h'.tableMap_eq_some, h.tableMap_eq_some]
  apply and_congr_right
  intro hz
  apply exists_congr
  intro j
  rw [List.getElem?_set]
  by_cases hj : i = j
  · have hlt := (List.getElem?_eq_some_iff.mp hi).1
    rw [if_pos hj, if_pos (hj ▸ hlt), ← hj, hi, Option.some.injEq, Option.some.injEq]
    exact iff_of_false (fun he => hy (he ▸ hz)) fun he => hx (he ▸ hz)
  · rw [if_neg hj]

end Map

theorem KeysDistinct.set (h : KeysDistinct key l)
    (hy : ∀ k, key y = some k → ∀ (j : ℕ) z, l[j]? = some z → key z = some k → j = i) :
    KeysDistinct key (l.set i y) := by
  intro a b u v k ha hb hu hv
  rw [List.getElem?_set] at ha hb
  by_cases hia : i = a
  · by_cases hib : i = b
    · exact hia.symm.trans hib
    · rw [if_neg hib] at hb
      rw [if_pos hia] at ha
      split_ifs at ha
      rw [Option.some.injEq] at ha
      exact hia.symm.trans (hy k (ha ▸ hu) b v hb hv).symm
  · rw [if_neg hia] at ha
    by_cases hib : i = b
    · rw [if_pos hib] at hb
      split_ifs at hb
      rw [Option.some.injEq] at hb
      exact (hy k (hb ▸ hv) a u ha hu).trans hib
    · rw [if_neg hib] at hb
      exact h a b u v k ha hb hu hv

theorem KeysDistinct.nodup_keys (h : KeysDistinct key l) : (keys key l).Nodup := by
  induction l with
  | nil => exact List.nodup_nil
  | cons x l ih =>
    have htail : KeysDistinct key l := fun i j u v k hi hj hu hv =>
      Nat.succ.inj (h (i + 1) (j + 1) u v k hi hj hu hv)
    unfold keys
    cases hx : key x with
    | none =>
      rw [List.filterMap_cons_none hx]
      exact ih htail
    | some k =>
      rw [List.filterMap_cons_some hx, List.nodup_cons]
      refine ⟨?_, ih htail⟩
      intro hmem
      obtain ⟨y, hy, hk⟩ := List.mem_filterMap.mp hmem
      obtain ⟨j, hj⟩ := List.mem_iff_getElem?.mp hy
      exact absurd (h 0 (j + 1) x y k rfl hj hx hk) (Nat.succ_ne_zero j).symm

/-- A table is full where it has as many keys as slots. -/
theorem keys_length_lt : (keys key l).length < l.length ↔ ∃ x ∈ l, key x = none := by
  have hle : (keys key l).length ≤ l.length := List.length_filterMap_le _ _
  have hall : (keys key l).length = l.length ↔ ∀ x ∈ l, (key x).isSome := by
    unfold keys
    exact List.filterMap_length_eq_length
  constructor
  · intro hlt
    by_contra hno
    have := hall.mpr fun x hx => Option.isSome_iff_ne_none.mpr fun he => hno ⟨x, hx, he⟩
    omega
  · intro ⟨x, hx, hnone⟩
    apply Nat.lt_of_le_of_ne hle
    intro he
    have hsome := hall.mp he x hx
    rw [hnone] at hsome
    exact Bool.false_ne_true hsome

variable [DecidableEq κ]

/-- A slot that is free, or has the key already, is filled. -/
theorem KeysDistinct.tableMap_fill (h : KeysDistinct key l) (hi : l[i]? = some x)
    (hx : key x = none ∨ key x = some k) (hy : key y = some k) (ho : OnlyAt key l i k) :
    KeysDistinct key (l.set i y) ∧
      tableMap key (l.set i y) = Function.update (tableMap key l) k (some y) := by
  have h' : KeysDistinct key (l.set i y) := by
    apply h.set
    intro k' hk' j z hj hz
    rw [hy, Option.some.injEq] at hk'
    exact ho j z hj (hk' ▸ hz)
  refine ⟨h', ?_⟩
  funext k'
  by_cases hk : k' = k
  · rw [hk, Function.update_self, h'.tableMap_eq_some]
    exact ⟨hy, i, List.getElem?_set_self (List.getElem?_eq_some_iff.mp hi).1⟩
  · rw [Function.update_of_ne hk]
    apply h.tableMap_set_ne h' hi
    · intro he
      rcases hx with hx | hx <;> rw [hx] at he
      · exact Option.some_ne_none _ he.symm
      · exact hk (Option.some.inj he).symm
    · intro he
      exact hk (Option.some.inj (hy.symm.trans he)).symm

/-- The slot of a key is freed. -/
theorem KeysDistinct.tableMap_free (h : KeysDistinct key l) (hi : l[i]? = some x)
    (hx : key x = some k) (hy : key y = none) :
    KeysDistinct key (l.set i y) ∧
      tableMap key (l.set i y) = Function.update (tableMap key l) k none := by
  have h' : KeysDistinct key (l.set i y) := by
    apply h.set
    intro k' hk'
    rw [hy] at hk'
    exact absurd hk'.symm (Option.some_ne_none _)
  refine ⟨h', ?_⟩
  funext k'
  by_cases hk : k' = k
  · rw [hk, Function.update_self, tableMap_eq_none]
    intro z hz he
    obtain ⟨j, hj⟩ := List.mem_iff_getElem?.mp hz
    rw [List.getElem?_set] at hj
    split_ifs at hj with hij hlt
    · rw [← Option.some.inj hj, hy] at he
      exact Option.some_ne_none _ he.symm
    · exact hij (h.onlyAt hi hx j z hj he).symm
  · rw [Function.update_of_ne hk]
    apply h.tableMap_set_ne h' hi
    · intro he
      exact hk (Option.some.inj (hx.symm.trans he)).symm
    · rw [hy]
      exact (Option.some_ne_none _).symm

theorem mem_keys : k ∈ keys key l ↔ (tableMap key l k).isSome := by
  rw [← not_iff_not, Bool.not_eq_true, Option.isSome_eq_false_iff, Option.isNone_iff_eq_none,
    tableMap_eq_none]
  simp [keys]

end Xeneva.Base
