import Mathlib

/-!
# Cutting tiles

A tile is a product of two half-open intervals. What another tile leaves of it are the parts on
its left and right, over its whole height, and those above and below in between.
-/

namespace Xeneva.Base

variable {α : Type*} [LinearOrder α]

structure Tile (α : Type*) where
  left : α
  top : α
  right : α
  bottom : α
  deriving DecidableEq

namespace Tile

variable {s t c : Tile α}

def cells (t : Tile α) : Set (α × α) := Set.Ico t.left t.right ×ˢ Set.Ico t.top t.bottom

/-- There is a cell in the tile. -/
def Proper (t : Tile α) : Prop := t.left < t.right ∧ t.top < t.bottom

instance (t : Tile α) : Decidable t.Proper := inferInstanceAs (Decidable (_ ∧ _))

/-- What two tiles have in common. -/
def meet (t c : Tile α) : Tile α where
  left := max c.left t.left
  top := max c.top t.top
  right := min c.right t.right
  bottom := min c.bottom t.bottom

/-- The four parts around a tile inside. -/
def around (t m : Tile α) : List (Tile α) :=
  [⟨t.left, t.top, m.left, t.bottom⟩, ⟨m.right, t.top, t.right, t.bottom⟩,
    ⟨m.left, t.top, m.right, m.top⟩, ⟨m.left, m.bottom, m.right, t.bottom⟩]

/-- The tiles that are left when another one is cut out. -/
def without (t c : Tile α) : List (Tile α) :=
  if (t.meet c).Proper then (t.around (t.meet c)).filter (fun s => s.Proper) else [t]

theorem mem_cells {p : α × α} : p ∈ t.cells ↔
    (t.left ≤ p.1 ∧ p.1 < t.right) ∧ t.top ≤ p.2 ∧ p.2 < t.bottom := Iff.rfl

theorem Proper.of_mem {p : α × α} (h : p ∈ t.cells) : t.Proper :=
  ⟨h.1.1.trans_lt h.1.2, h.2.1.trans_lt h.2.2⟩

theorem Proper.corner (h : t.Proper) : (t.left, t.top) ∈ t.cells :=
  ⟨⟨le_refl _, h.1⟩, le_refl _, h.2⟩

theorem cells_meet : (t.meet c).cells = t.cells ∩ c.cells := by
  ext p
  simp only [Set.mem_inter_iff, mem_cells, meet, max_le_iff, lt_min_iff]
  tauto

theorem length_without_le : (t.without c).length ≤ 4 := by
  rw [without]
  split_ifs
  · exact List.length_filter_le _ _
  · exact Nat.le_of_ble_eq_true rfl

theorem proper_of_mem_without (ht : t.Proper) (h : s ∈ t.without c) : s.Proper := by
  rw [without] at h
  split_ifs at h
  · exact of_decide_eq_true (List.mem_filter.mp h).2
  · rwa [List.mem_singleton.mp h]

/-- A tile inside lies within the bounds. -/
theorem meet_bounds : t.left ≤ (t.meet c).left ∧ (t.meet c).right ≤ t.right ∧
    t.top ≤ (t.meet c).top ∧ (t.meet c).bottom ≤ t.bottom :=
  ⟨le_max_right _ _, min_le_right _ _, le_max_right _ _, min_le_right _ _⟩

theorem mem_around {p : α × α} {m : Tile α} (hm : t.left ≤ m.left ∧ m.right ≤ t.right ∧
    t.top ≤ m.top ∧ m.bottom ≤ t.bottom) (hp : m.Proper) :
    (∃ s ∈ t.around m, p ∈ s.cells) ↔ p ∈ t.cells ∧ p ∉ m.cells := by
  obtain ⟨x, y⟩ := p
  obtain ⟨h1, h2, h3, h4⟩ := hm
  obtain ⟨hx, hy⟩ := hp
  simp only [around, List.mem_cons, List.not_mem_nil, or_false, exists_eq_or_imp, exists_eq_left,
    mem_cells]
  grind

theorem around_apart {m : Tile α} (hp : m.left ≤ m.right ∧ m.top ≤ m.bottom) :
    (t.around m).Pairwise fun a b => Disjoint a.cells b.cells := by
  simp only [around, List.pairwise_cons, List.mem_cons, List.not_mem_nil, or_false,
    forall_eq_or_imp, forall_eq, Set.disjoint_left, mem_cells, Prod.forall, List.Pairwise.nil,
    and_true]
  grind

/-- A cell is in one of the tiles that are left just when it is not cut out. -/
theorem mem_without {p : α × α} :
    (∃ s ∈ t.without c, p ∈ s.cells) ↔ p ∈ t.cells ∧ p ∉ c.cells := by
  have hmeet : p ∈ (t.meet c).cells ↔ p ∈ t.cells ∧ p ∈ c.cells := by rw [cells_meet]; rfl
  rw [without]
  split_ifs with hm
  · have h := mem_around (p := p) meet_bounds hm
    have hcut : (p ∈ t.cells ∧ p ∉ c.cells) ↔ p ∈ t.cells ∧ p ∉ (t.meet c).cells := by
      rw [hmeet]
      tauto
    rw [hcut, ← h]
    constructor
    · rintro ⟨s, hs, hps⟩
      exact ⟨s, (List.mem_filter.mp hs).1, hps⟩
    · rintro ⟨s, hs, hps⟩
      exact ⟨s, List.mem_filter.mpr ⟨hs, decide_eq_true (Proper.of_mem hps)⟩, hps⟩
  · have hno : p ∉ (t.meet c).cells := fun h => hm (Proper.of_mem h)
    rw [hmeet] at hno
    simp only [List.mem_singleton, exists_eq_left]
    tauto

theorem without_apart : (t.without c).Pairwise fun a b => Disjoint a.cells b.cells := by
  rw [without]
  split_ifs with hm
  · exact (around_apart ⟨hm.1.le, hm.2.le⟩).filter _
  · exact List.pairwise_singleton _ _

end Tile

end Xeneva.Base
