import Mathlib

/-!
# Programs that may be cut off

A program over a state either returns, or runs out of the steps it was given. In both cases the
state that it reached is kept.
-/

namespace Xeneva.Base

/-- How a program ends. -/
inductive Ending (σ α : Type) where
  | done (a : α) (s : σ)
  | cut (s : σ)

/-- The state in the end, returned from or cut off in. -/
def Ending.state {σ α : Type} : Ending σ α → σ
  | .done _ s => s
  | .cut s => s

/-- What was returned, if the program was not cut off. -/
def Ending.value {σ α : Type} : Ending σ α → Option α
  | .done a _ => some a
  | .cut _ => none

theorem Ending.done_of_value {σ α : Type} {e : Ending σ α} {a : α} (h : e.value = some a) :
    e = .done a e.state := by
  cases e with
  | done b s => rw [Option.some.inj h]; rfl
  | cut s => exact absurd h (by simp [Ending.value])

def Prg (σ α : Type) := σ → Ending σ α

namespace Prg

variable {σ α β : Type}

def bind (m : Prg σ α) (f : α → Prg σ β) : Prg σ β := fun s =>
  match m s with
  | .done a s' => f a s'
  | .cut s' => .cut s'

instance : Monad (Prg σ) where
  pure a := fun s => .done a s
  bind := bind

/-- The steps have run out. -/
def cutoff : Prg σ α := fun s => .cut s

def read (f : σ → α) : Prg σ α := fun s => .done (f s) s

def update (f : σ → σ) : Prg σ Unit := fun s => .done () (f s)

def when (c : Prop) [Decidable c] (m : Prg σ Unit) : Prg σ Unit := if c then m else pure ()

/-- The program ends in a state of `Q` when it returns, and in one of `C` when it is cut off. -/
def Ends (m : Prg σ α) (s : σ) (Q : α → σ → Prop) (C : σ → Prop) : Prop :=
  match m s with
  | .done a s' => Q a s'
  | .cut s' => C s'

variable {m : Prg σ α} {f : α → Prg σ β} {s : σ} {Q Q' : α → σ → Prop} {R : β → σ → Prop}
  {C C' : σ → Prop}

theorem ends_bind :
    Ends (m >>= f) s R C ↔ Ends m s (fun a s' => Ends (f a) s' R C) C := by
  change Ends (bind m f) s R C ↔ _
  unfold Ends bind
  cases m s <;> rfl

theorem bind_bind {γ : Type} {g : β → Prg σ γ} {R : γ → σ → Prop} :
    Ends ((m >>= f) >>= g) s R C ↔ Ends (m >>= fun a => f a >>= g) s R C := by
  rw [ends_bind, ends_bind, ends_bind]
  simp only [ends_bind]

theorem Ends.mono (h : Ends m s Q C) (hQ : ∀ a s', Q a s' → Q' a s') (hC : ∀ s', C s' → C' s') :
    Ends m s Q' C' := by
  unfold Ends at *
  cases hm : m s with
  | done a s' =>
    rw [hm] at h
    exact hQ a s' h
  | cut s' =>
    rw [hm] at h
    exact hC s' h

/-- A program followed by another is followed through a property of the states between. -/
theorem Ends.bind (h : Ends m s Q C) (hf : ∀ a s', Q a s' → Ends (f a) s' R C) :
    Ends (m >>= f) s R C :=
  ends_bind.mpr (h.mono hf fun _ hs => hs)

theorem Ends.done (h : Ends m s Q C) {a : α} {s' : σ} (hm : m s = .done a s') : Q a s' := by
  unfold Ends at h
  rw [hm] at h
  exact h

/-- What holds of every end holds of the state in the end. -/
theorem Ends.state (h : Ends m s (fun _ => C) C) : C (m s).state := by
  unfold Ends at h
  cases hm : m s with
  | done a s' =>
    rw [hm] at h
    exact h
  | cut s' =>
    rw [hm] at h
    exact h

end Prg

end Xeneva.Base
