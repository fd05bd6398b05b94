import Mathlib

/-!
# Ledgers

Each event of a trace adds to the accounts or takes from them. A trace is solvent when no prefix of
it leaves an account below zero.
-/

namespace Xeneva.Base

variable {E H : Type} {w : E → H → ℤ} {h : H} {tr tr' : List E} {e : E}

/-- What a trace leaves in an account. -/
def net (w : E → H → ℤ) (h : H) (tr : List E) : ℤ := (tr.map fun e => w e h).sum

@[simp] theorem net_nil : net w h [] = 0 := rfl

@[simp] theorem net_append : net w h (tr ++ tr') = net w h tr + net w h tr' := by
  simp [net]

@[simp] theorem net_singleton : net w h [e] = w e h := by
  simp [net]

theorem net_nonneg (hw : ∀ e ∈ tr, 0 ≤ w e h) : 0 ≤ net w h tr := by
  apply List.sum_nonneg
  intro x hx
  obtain ⟨e, he, rfl⟩ := List.mem_map.mp hx
  exact hw e he

/-- An account that is only paid into is empty when nothing was paid. -/
theorem net_eq_zero_iff (hw : ∀ e ∈ tr, 0 ≤ w e h) : net w h tr = 0 ↔ ∀ e ∈ tr, w e h = 0 := by
  induction tr with
  | nil => simp
  | cons e tr ih =>
    have he : 0 ≤ w e h := hw e List.mem_cons_self
    have htr : ∀ e ∈ tr, 0 ≤ w e h := fun e he => hw e (List.mem_cons_of_mem _ he)
    have hn : 0 ≤ net w h tr := net_nonneg htr
    have hcons : net w h (e :: tr) = w e h + net w h tr := by simp [net]
    rw [List.forall_mem_cons, ← ih htr, hcons]
    omega

/-- No account is ever below zero. -/
def Solvent (w : E → H → ℤ) (tr : List E) : Prop := ∀ p, p <+: tr → ∀ h, 0 ≤ net w h p

theorem Solvent.nil : Solvent w [] := by
  intro p hp h
  rw [List.prefix_nil.mp hp]
  simp

theorem Solvent.net_nonneg (hs : Solvent w tr) (h : H) : 0 ≤ net w h tr :=
  hs tr (List.prefix_refl tr) h

theorem Solvent.append (hs : Solvent w tr) (hs' : Solvent w tr') : Solvent w (tr ++ tr') := by
  intro p hp h
  obtain hp | ⟨q, rfl⟩ := List.prefix_or_prefix_of_prefix hp (List.prefix_append tr tr')
  · exact hs p hp h
  · have hq : q <+: tr' := (List.prefix_append_right_inj tr).mp hp
    rw [net_append]
    have h₁ := hs.net_nonneg h
    have h₂ := hs' q hq h
    omega

theorem Solvent.snoc (hs : Solvent w tr) (he : ∀ h, 0 ≤ net w h tr + w e h) :
    Solvent w (tr ++ [e]) := by
  intro p hp h
  obtain hp | rfl := List.prefix_concat_iff.mp hp |>.symm
  · exact hs p hp h
  · simpa using he h

end Xeneva.Base
