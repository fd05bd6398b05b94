import Mathlib

/-!
# Checked access to buffers

A program over buffers that stops at the first access outside one, and the rules for showing
that it never does.
-/

namespace Xeneva.Base.Checked

inductive Fault
  | outOfBounds
  | outOfFuel
deriving DecidableEq, Repr

variable {α β : Type} {m : Except Fault α} {f : α → Except Fault β}

/-- The byte at an index of a buffer. -/
def rd (p : List α) (i : ℕ) : Except Fault α :=
  if h : i < p.length then .ok p[i] else .error .outOfBounds

/-- The buffer after a write at an index. -/
def wr (p : List α) (i : ℕ) (b : α) : Except Fault (List α) :=
  if i < p.length then .ok (p.set i b) else .error .outOfBounds

/-- The program ends without a fault, with a value of which `P` holds. -/
def Ends (m : Except Fault α) (P : α → Prop) : Prop := ∃ a, m = .ok a ∧ P a

/-- The program ends without a fault. -/
def Safe (m : Except Fault α) : Prop := Ends m fun _ => True

theorem ends_ok {P : α → Prop} {a : α} (h : P a) : Ends (.ok a) P := ⟨a, rfl, h⟩

theorem ends_pure {P : α → Prop} {a : α} (h : P a) : Ends (pure a) P := ⟨a, rfl, h⟩

theorem Ends.bind {P : α → Prop} {Q : β → Prop} (hm : Ends m P) (hf : ∀ a, P a → Ends (f a) Q) :
    Ends (m >>= f) Q := by
  obtain ⟨a, rfl, ha⟩ := hm
  exact hf a ha

theorem Ends.mono {P Q : α → Prop} (hm : Ends m P) (h : ∀ a, P a → Q a) : Ends m Q := by
  obtain ⟨a, rfl, ha⟩ := hm
  exact ⟨a, rfl, h a ha⟩

theorem Ends.safe {P : α → Prop} (hm : Ends m P) : Safe m := hm.mono fun _ _ => trivial

theorem safe_ok (a : α) : Safe (.ok a : Except Fault α) := ends_ok trivial

theorem safe_pure (a : α) : Safe (pure a : Except Fault α) := ends_pure trivial

theorem not_safe_error (e : Fault) : ¬Safe (.error e : Except Fault α) := by
  intro ⟨_, h, _⟩
  exact nomatch h

theorem ok_bind (a : α) : ((Except.ok a : Except Fault α) >>= f) = f a := rfl

/-- What runs first must end, and so must the rest from its value. -/
theorem safe_bind_iff : Safe (m >>= f) ↔ ∃ a, m = .ok a ∧ Safe (f a) := by
  cases m with
  | error e =>
    constructor
    · intro h
      exact absurd h (not_safe_error e)
    · intro ⟨_, h, _⟩
      exact nomatch h
  | ok a =>
    constructor
    · intro h
      exact ⟨a, rfl, h⟩
    · intro ⟨b, hb, h⟩
      exact Except.ok.inj hb ▸ h

theorem rd_of_lt {p : List α} {i : ℕ} (h : i < p.length) : rd p i = .ok p[i] := dif_pos h

theorem rd_of_le {p : List α} {i : ℕ} (h : p.length ≤ i) : rd p i = .error .outOfBounds :=
  dif_neg (Nat.not_lt.mpr h)

theorem ends_rd {p : List α} {i : ℕ} (h : i < p.length) : Ends (rd p i) fun b => p[i]? = some b :=
  ⟨p[i], rd_of_lt h, List.getElem?_eq_getElem h⟩

theorem safe_rd_iff {p : List α} {i : ℕ} : Safe (rd p i) ↔ i < p.length := by
  constructor
  · intro h
    apply Nat.lt_of_not_le
    intro hle
    exact not_safe_error _ (rd_of_le hle ▸ h)
  · intro h
    exact (ends_rd h).safe

theorem ends_wr {p : List α} {i : ℕ} {b : α} (h : i < p.length) :
    Ends (wr p i b) fun q => q = p.set i b := ⟨p.set i b, if_pos h, rfl⟩

end Xeneva.Base.Checked
