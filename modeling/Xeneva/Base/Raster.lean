import Mathlib

/-!
# Drawing in rows

A picture is drawn over another one, pixel by pixel or four pixels at a time. `Paints` says which
pixels are drawn, in which colour, and which places are looked at.
-/

namespace Xeneva.Base

/-- Pixels by their place, and the places that have been looked at: in the source that is drawn,
and on the raster itself. -/
structure Raster (α : Type*) where
  px : ℤ → α
  reads : List ℤ
  touched : List ℤ

/-- How a pixel is drawn, given its place, that of its source, and both colours. In groups of four,
solid pixels are stored as they are, and clear ones may be passed over. -/
structure Blend (α : Type*) where
  one : ℤ → ℤ → α → α → α
  group : ℤ → ℤ → α → α → α
  solid : α → Bool
  clear : α → Bool
  group_eq : ∀ d s old c, group d s old c = one d s old c
  solid_eq : ∀ d s old c, solid c = true → one d s old c = c
  clear_eq : ∀ d s old c, clear c = true → one d s old c = old

variable {α σ : Type*} {m m' m'' : Raster α} {A B : ℤ → Prop} {color : ℤ → α → α} {R : ℤ → Prop}

/-- The places of `n` sources, from the state `c` of a counter on. -/
def places (place : σ → ℤ) (next : σ → σ) : ℕ → σ → List ℤ
  | 0, _ => []
  | n + 1, c => place c :: places place next n (next c)

/-- The places in `A` have got their colours, all others have kept theirs; of the source only places
in `R` have been read, and no place outside `A` has been touched. -/
structure Paints (m m' : Raster α) (A : ℤ → Prop) (color : ℤ → α → α) (R : ℤ → Prop) : Prop where
  inside : ∀ k, A k → m'.px k = color k (m.px k)
  outside : ∀ k, ¬ A k → m'.px k = m.px k
  reads : ∀ s ∈ m'.reads, s ∈ m.reads ∨ R s
  touched : ∀ d ∈ m'.touched, d ∈ m.touched ∨ A d

theorem Paints.none (m : Raster α) (hA : ∀ k, ¬ A k) : Paints m m A color R where
  inside k hk := absurd hk (hA k)
  outside _ _ := rfl
  reads _ hs := .inl hs
  touched _ hd := .inl hd

theorem Paints.congr (h : Paints m m' A color R) (hAB : ∀ k, A k ↔ B k) :
    Paints m m' B color R where
  inside k hk := h.inside k ((hAB k).mpr hk)
  outside k hk := h.outside k (mt (hAB k).mp hk)
  reads := h.reads
  touched d hd := (h.touched d hd).imp_right (hAB d).mp

/-- Painting a part after another one that it does not meet. -/
theorem Paints.trans (h : Paints m m' A color R) (h' : Paints m' m'' B color R)
    (hAB : ∀ k, A k → ¬ B k) : Paints m m'' (fun k => A k ∨ B k) color R where
  inside k hk := by
    rcases hk with hk | hk
    · rw [h'.outside k (hAB k hk), h.inside k hk]
    · rw [h'.inside k hk, h.outside k fun ha => hAB k ha hk]
  outside k hk := by
    rw [h'.outside k fun hb => hk (.inr hb), h.outside k fun ha => hk (.inl ha)]
  reads s hs := by
    rcases h'.reads s hs with hs | hs
    · exact h.reads s hs
    · exact .inr hs
  touched d hd := by
    rcases h'.touched d hd with hd | hd
    · exact (h.touched d hd).imp_right .inl
    · exact .inr (.inr hd)

end Xeneva.Base
