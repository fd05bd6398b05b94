import Mathlib

/-!
# A stack that grows down in memory

Lists are put below what is there. A stack remembers where it was written.
-/

namespace Xeneva.Base

variable {α : Type*}

/-- The memory from an address on is a list. -/
def Holds (mem : ℤ → α) (a : ℤ) (l : List α) : Prop :=
  ∀ i : ℕ, ∀ h : i < l.length, mem (a + i) = l[i]

theorem Holds.congr {mem mem' : ℤ → α} {a : ℤ} {l : List α} (h : Holds mem a l)
    (hmem : ∀ b, a ≤ b → mem' b = mem b) : Holds mem' a l := by
  intro i hi
  rw [hmem _ (by omega), h i hi]

theorem Holds.append {mem : ℤ → α} {a : ℤ} {l m : List α} (hl : Holds mem a l)
    (hm : Holds mem (a + l.length) m) : Holds mem a (l ++ m) := by
  intro i hi
  rw [List.length_append] at hi
  rcases lt_or_ge i l.length with h | h
  · rw [List.getElem_append_left h, hl i h]
  · have hat := hm (i - l.length) (by omega)
    rw [List.getElem_append_right h, ← hat]
    congr 1
    omega

/-- The pointer, the memory, and the address and length of each write. -/
structure PushDown (α : Type*) where
  sp : ℤ
  mem : ℤ → α
  wrote : List (ℤ × ℕ)

namespace PushDown

/-- The pointer goes down to an address. -/
def lower (a : ℤ) (s : PushDown α) : PushDown α := { s with sp := a }

/-- The pointer goes down to an address that a list is written at. -/
def place (a : ℤ) (l : List α) (s : PushDown α) : PushDown α where
  sp := a
  mem := fun b => if h : a ≤ b ∧ (b - a).toNat < l.length then l[(b - a).toNat] else s.mem b
  wrote := s.wrote ++ [(a, l.length)]

/-- A list is put below the pointer. -/
def put (l : List α) (s : PushDown α) : PushDown α := s.place (s.sp - l.length) l

/-- A list is put element by element, the last one first. -/
def putEach (l : List α) (s : PushDown α) : PushDown α := l.foldr (fun x s => s.put [x]) s

/-- What is above the old pointer is as it was, and the new writes are between the two. -/
structure Extends (s t : PushDown α) : Prop where
  le : t.sp ≤ s.sp
  mem : ∀ a, s.sp ≤ a → t.mem a = s.mem a
  old : ∀ w ∈ s.wrote, w ∈ t.wrote
  new : ∀ w ∈ t.wrote, w ∈ s.wrote ∨ t.sp ≤ w.1 ∧ w.1 + w.2 ≤ s.sp

variable {s t u : PushDown α} {a : ℤ} {l : List α}

theorem Extends.refl (s : PushDown α) : s.Extends s where
  le := le_rfl
  mem _ _ := rfl
  old _ h := h
  new _ h := Or.inl h

theorem Extends.trans (h : s.Extends t) (h' : t.Extends u) : s.Extends u where
  le := h'.le.trans h.le
  mem a ha := (h'.mem a (h.le.trans ha)).trans (h.mem a ha)
  old w hw := h'.old w (h.old w hw)
  new w hw := by
    have hle := h.le
    have hle' := h'.le
    rcases h'.new w hw with hw | hw
    · rcases h.new w hw with hw | hw
      · exact Or.inl hw
      · exact Or.inr (by omega)
    · exact Or.inr (by omega)

theorem Extends.holds (h : s.Extends t) (ha : s.sp ≤ a) (hold : Holds s.mem a l) :
    Holds t.mem a l :=
  hold.congr fun b hb => h.mem b (ha.trans hb)

theorem extends_lower (h : a ≤ s.sp) : s.Extends (s.lower a) where
  le := h
  mem _ _ := rfl
  old _ hw := hw
  new _ hw := Or.inl hw

theorem extends_place (h : a + l.length ≤ s.sp) : s.Extends (s.place a l) where
  le := by
    change a ≤ s.sp
    omega
  mem b hb := dif_neg (by omega)
  old w hw := List.mem_append_left _ hw
  new w hw := by
    rcases List.mem_append.1 hw with hw | hw
    · exact Or.inl hw
    · rw [List.mem_singleton.1 hw]
      exact Or.inr ⟨le_rfl, h⟩

theorem place_holds (s : PushDown α) (a : ℤ) (l : List α) : Holds (s.place a l).mem a l := by
  intro i hi
  have hat : (a + i - a).toNat = i := by omega
  simp only [place, hat, hi, and_true]
  exact dif_pos (by omega)

theorem mem_wrote_place (s : PushDown α) (a : ℤ) (l : List α) :
    (a, l.length) ∈ (s.place a l).wrote :=
  List.mem_append_right _ List.mem_cons_self

theorem extends_put (s : PushDown α) (l : List α) : s.Extends (s.put l) :=
  extends_place (by omega)

@[simp] theorem put_sp (s : PushDown α) (l : List α) : (s.put l).sp = s.sp - l.length := rfl

theorem put_holds (s : PushDown α) (l : List α) : Holds (s.put l).mem (s.put l).sp l :=
  place_holds s _ l

@[simp] theorem putEach_sp (s : PushDown α) (l : List α) :
    (s.putEach l).sp = s.sp - l.length := by
  induction l with
  | nil => simp [putEach]
  | cons x l ih =>
    change (s.putEach l).sp - 1 = _
    rw [ih, List.length_cons]
    omega

theorem extends_putEach (s : PushDown α) (l : List α) : s.Extends (s.putEach l) := by
  induction l with
  | nil => exact Extends.refl s
  | cons x l ih => exact ih.trans (extends_put (s.putEach l) [x])

theorem putEach_holds (s : PushDown α) (l : List α) :
    Holds (s.putEach l).mem (s.putEach l).sp l := by
  induction l with
  | nil =>
    intro i hi
    exact absurd hi (Nat.not_lt_zero i)
  | cons x l ih =>
    have hstep := extends_put (s.putEach l) [x]
    intro i hi
    cases i with
    | zero =>
      have hx := put_holds (s.putEach l) [x] 0 Nat.one_pos
      exact hx
    | succ i =>
      have hold := hstep.holds le_rfl ih i (Nat.lt_of_succ_lt_succ hi)
      rw [putEach_sp] at hold ⊢
      rw [List.length_cons, List.getElem_cons_succ, ← hold]
      change (s.putEach l |>.put [x]).mem _ = _
      congr 1
      omega

/-- All writes are at the pointer or above it, and end below an address. -/
theorem Extends.inside (h : s.Extends t) (hs : s.wrote = []) :
    ∀ w ∈ t.wrote, t.sp ≤ w.1 ∧ w.1 + w.2 ≤ s.sp := by
  intro w hw
  rcases h.new w hw with hw | hw
  · rw [hs] at hw
    cases hw
  · exact hw

/-- The lists of `xs` are put one below the other, the last one first, with their addresses. -/
def putAll (push : List α → PushDown α → PushDown α) : List (List α) → PushDown α →
    PushDown α × List ℤ
  | [], s => (s, [])
  | x :: xs, s =>
    let (s, ps) := putAll push xs s
    let s := push x s
    (s, s.sp :: ps)

variable {push : List α → PushDown α → PushDown α}

theorem putAll_sp (hpush : ∀ l s, (push l s).sp = s.sp - l.length) (xs : List (List α))
    (s : PushDown α) :
    (putAll push xs s).1.sp = s.sp - (xs.map List.length).sum := by
  induction xs with
  | nil => simp [putAll]
  | cons x xs ih =>
    rw [putAll, List.map_cons, List.sum_cons]
    dsimp only
    rw [hpush, ih]
    omega

theorem extends_putAll (hpush : ∀ l (s : PushDown α), s.Extends (push l s)) (xs : List (List α))
    (s : PushDown α) : s.Extends (putAll push xs s).1 := by
  induction xs with
  | nil => exact Extends.refl s
  | cons x xs ih => exact ih.trans (hpush x _)

theorem putAll_holds (hpush : ∀ l (s : PushDown α), s.Extends (push l s))
    (hholds : ∀ l s, Holds (push l s).mem (push l s).sp l) (xs : List (List α))
    (s : PushDown α) :
    List.Forall₂ (fun p x => ((putAll push xs s).1.sp ≤ p ∧ p ≤ s.sp) ∧
      Holds (putAll push xs s).1.mem p x) (putAll push xs s).2 xs := by
  induction xs with
  | nil => exact List.Forall₂.nil
  | cons x xs ih =>
    have hstep := hpush x (putAll push xs s).1
    have hrest := extends_putAll hpush xs s
    apply List.Forall₂.cons
    · exact ⟨⟨le_rfl, hstep.le.trans hrest.le⟩, hholds x _⟩
    · apply ih.imp
      intro p y h
      exact ⟨⟨hstep.le.trans h.1.1, h.1.2⟩, hstep.holds h.1.1 h.2⟩

end PushDown

end Xeneva.Base
