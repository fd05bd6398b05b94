import Mathlib

/-!
# The first entry that matches

A walk over a list that stops at the first match, changes it, takes it out or looks at it.
-/

namespace Xeneva.Base

variable {α β : Type*} {p p' : α → Bool} {q : β → Bool} {f : α → α} {g : β → β} {l : List α}
  {m : List β} {R : α → β → Prop} {x : α}

/-- The first entry that matches is changed. -/
def modifyFirst (p : α → Bool) (f : α → α) : List α → List α
  | [] => []
  | x :: l => if p x then f x :: l else x :: modifyFirst p f l

theorem modifyFirst_pos (h : p x = true) : modifyFirst p f (x :: l) = f x :: l := if_pos h

theorem modifyFirst_neg (h : p x = false) :
    modifyFirst p f (x :: l) = x :: modifyFirst p f l := by
  rw [modifyFirst, if_neg (by rw [h]; exact Bool.false_ne_true)]

theorem modifyFirst_eq_self (h : ∀ x, l.find? p = some x → f x = x) : modifyFirst p f l = l := by
  induction l with
  | nil => rfl
  | cons x l ih =>
    cases hx : p x with
    | true => rw [modifyFirst_pos hx, h x (List.find?_cons_of_pos hx)]
    | false =>
      rw [List.find?_cons_of_neg (by rw [hx]; exact Bool.false_ne_true)] at h
      rw [modifyFirst_neg hx, ih h]

/-- The same entry matches first. -/
def SameFirst (p p' : α → Bool) (l : List α) : Prop := l.findIdx? p = l.findIdx? p'

theorem SameFirst.head (h : SameFirst p p' (x :: l)) : p x = p' x := by
  unfold SameFirst at h
  rw [List.findIdx?_cons, List.findIdx?_cons] at h
  have hno (o : Option ℕ) : some 0 ≠ o.map (· + 1) := by
    intro he
    obtain ⟨i, -, hi⟩ := Option.map_eq_some_iff.mp he.symm
    exact Nat.succ_ne_zero i hi
  cases hp : p x with
  | true =>
    rw [hp, if_pos rfl] at h
    cases hp' : p' x with
    | true => rfl
    | false => exact absurd (by rwa [hp', if_neg Bool.false_ne_true] at h) (hno _)
  | false =>
    rw [hp, if_neg Bool.false_ne_true] at h
    cases hp' : p' x with
    | true => exact absurd (by rw [h, hp', if_pos rfl]) (hno _).symm
    | false => rfl

theorem SameFirst.tail (h : SameFirst p p' (x :: l)) (hx : p x = false) : SameFirst p p' l := by
  have hx' := h.head.symm.trans hx
  unfold SameFirst at h ⊢
  rw [List.findIdx?_cons, List.findIdx?_cons, hx, hx'] at h
  exact Option.map_injective (fun _ _ => Nat.succ.inj) h

theorem SameFirst.modifyFirst (h : SameFirst p p' l) (f : α → α) :
    modifyFirst p f l = modifyFirst p' f l := by
  induction l with
  | nil => rfl
  | cons x l ih =>
    cases hx : p x with
    | true => rw [modifyFirst_pos hx, modifyFirst_pos (h.head.symm.trans hx)]
    | false =>
      rw [modifyFirst_neg hx, modifyFirst_neg (h.head.symm.trans hx), ih (h.tail hx)]

theorem SameFirst.eraseP (h : SameFirst p p' l) : l.eraseP p = l.eraseP p' := by
  induction l with
  | nil => rfl
  | cons x l ih =>
    rw [List.eraseP_cons, List.eraseP_cons, ← h.head]
    cases hx : p x with
    | true => rfl
    | false => rw [cond_false, cond_false, ih (h.tail hx)]

theorem SameFirst.find? (h : SameFirst p p' l) : l.find? p = l.find? p' := by
  induction l with
  | nil => rfl
  | cons x l ih =>
    rw [List.find?_cons, List.find?_cons, ← h.head]
    cases hx : p x with
    | true => rfl
    | false => exact ih (h.tail hx)

theorem forall₂_modifyFirst (h : List.Forall₂ R l m) (hpq : ∀ x y, R x y → p x = q y)
    (hfg : ∀ x y, l.find? p = some x → m.find? q = some y → R x y → R (f x) (g y)) :
    List.Forall₂ R (modifyFirst p f l) (modifyFirst q g m) := by
  induction h with
  | nil => exact .nil
  | @cons x y l m hxy hlm ih =>
    have heq := hpq x y hxy
    cases hx : p x with
    | true =>
      have hy := heq.symm.trans hx
      rw [modifyFirst_pos hx, modifyFirst_pos hy]
      exact .cons (hfg x y (List.find?_cons_of_pos hx) (List.find?_cons_of_pos hy) hxy) hlm
    | false =>
      have hy := heq.symm.trans hx
      have hx' : ¬ p x = true := by rw [hx]; exact Bool.false_ne_true
      have hy' : ¬ q y = true := by rw [hy]; exact Bool.false_ne_true
      rw [modifyFirst_neg hx, modifyFirst_neg hy]
      rw [List.find?_cons_of_neg hx', List.find?_cons_of_neg hy'] at hfg
      exact .cons hxy (ih hfg)

theorem forall₂_eraseP (h : List.Forall₂ R l m) (hpq : ∀ x y, R x y → p x = q y) :
    List.Forall₂ R (l.eraseP p) (m.eraseP q) := by
  induction h with
  | nil => exact .nil
  | @cons x y l m hxy hlm ih =>
    rw [List.eraseP_cons, List.eraseP_cons, ← hpq x y hxy]
    cases hx : p x with
    | true => exact hlm
    | false => exact .cons hxy ih

theorem forall₂_find? (h : List.Forall₂ R l m) (hpq : ∀ x y, R x y → p x = q y) :
    (l.find? p = none ∧ m.find? q = none) ∨
      ∃ x y, l.find? p = some x ∧ m.find? q = some y ∧ R x y := by
  induction h with
  | nil => exact .inl ⟨rfl, rfl⟩
  | @cons x y l m hxy hlm ih =>
    rw [List.find?_cons, List.find?_cons, ← hpq x y hxy]
    cases hx : p x with
    | true => exact .inr ⟨x, y, rfl, rfl, hxy⟩
    | false => exact ih

/-- Of all that match only the first is changed. -/
theorem filter_modifyFirst (hf : ∀ x, p x = true → p (f x) = true) (l : List α) :
    (modifyFirst p f l).filter p = (l.filter p).modifyHead f := by
  induction l with
  | nil => rfl
  | cons x l ih =>
    cases hx : p x with
    | true =>
      rw [modifyFirst_pos hx, List.filter_cons_of_pos (hf x hx), List.filter_cons_of_pos hx,
        List.modifyHead_cons]
    | false =>
      have hneg : ¬ p x = true := by rw [hx]; exact Bool.false_ne_true
      rw [modifyFirst_neg hx, List.filter_cons_of_neg hneg, List.filter_cons_of_neg hneg, ih]

theorem filter_modifyFirst_ne (hf : ∀ x, p x = true → p' x = false ∧ p' (f x) = false)
    (l : List α) : (modifyFirst p f l).filter p' = l.filter p' := by
  induction l with
  | nil => rfl
  | cons x l ih =>
    cases hx : p x with
    | true =>
      obtain ⟨h1, h2⟩ := hf x hx
      rw [modifyFirst_pos hx, List.filter_cons_of_neg (by rw [h2]; exact Bool.false_ne_true),
        List.filter_cons_of_neg (by rw [h1]; exact Bool.false_ne_true)]
    | false => rw [modifyFirst_neg hx, List.filter_cons, List.filter_cons, ih]

theorem filter_eraseP (p : α → Bool) (l : List α) :
    (l.eraseP p).filter p = (l.filter p).tail := by
  induction l with
  | nil => rfl
  | cons x l ih =>
    rw [List.eraseP_cons]
    cases hx : p x with
    | true => rw [List.filter_cons_of_pos hx, cond_true, List.tail_cons]
    | false =>
      have hneg : ¬ p x = true := by rw [hx]; exact Bool.false_ne_true
      rw [cond_false, List.filter_cons_of_neg hneg, List.filter_cons_of_neg hneg, ih]

theorem filter_eraseP_ne (h : ∀ x, p x = true → p' x = false) (l : List α) :
    (l.eraseP p).filter p' = l.filter p' := by
  induction l with
  | nil => rfl
  | cons x l ih =>
    rw [List.eraseP_cons]
    cases hx : p x with
    | true =>
      rw [cond_true, List.filter_cons_of_neg (by rw [h x hx]; exact Bool.false_ne_true)]
    | false => rw [cond_false, List.filter_cons, List.filter_cons, ih]

end Xeneva.Base
