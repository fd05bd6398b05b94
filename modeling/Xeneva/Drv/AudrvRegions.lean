import Xeneva.Drv.Audrv

/-!
# The driver regions are disjoint
-/

namespace Xeneva.Audrv
open Base

variable {s s' : State} {i pages base bound : ℕ} {rs rs' : List Region} {r : Region} {e : Extent}

/-- A free region below the bump pointer `bound`. -/
structure RegionOk (bound : ℕ) (r : Region) : Prop where
  ge : AU_DRIVER_BASE_START ≤ r.base
  le : r.base + r.pages * 4096 ≤ bound
  aligned : r.base % 4096 = 0
  pos : 0 < r.pages

theorem RegionOk.mono {bound' : ℕ} (h : RegionOk bound r) (hb : r.base + r.pages * 4096 ≤ bound') :
    RegionOk bound' r := ⟨h.ge, hb, h.aligned, h.pos⟩

/-- Every pair of a list of regions is apart. -/
def Apart (rs : List Region) : Prop := rs.Pairwise fun r r' => r.extent.Apart r'.extent

theorem Apart.perm (h : Apart rs) (hp : rs.Perm rs') : Apart rs' :=
  hp.pairwise h fun h => h.symm

/-- The front of a region. -/
theorem front_sub (h : pages ≤ r.pages) :
    (Extent.mk r.base (pages * 4096)).set ⊆ r.extent.set :=
  Extent.sub_of_le (Nat.le_refl _) (Nat.add_le_add_left (Nat.mul_le_mul_right 4096 h) _)

/-- What an allocation takes: a part of a region, which no region keeps. -/
structure Taken (bound base pages : ℕ) (rs rs' : List Region) : Prop where
  sub : ∃ r ∈ rs, (Extent.mk base (pages * 4096)).set ⊆ r.extent.set
  ge : AU_DRIVER_BASE_START ≤ base
  le : base + pages * 4096 ≤ bound
  aligned : base % 4096 = 0
  ok : ∀ r ∈ rs', RegionOk bound r
  part : ∀ r' ∈ rs', ∃ r ∈ rs, r'.extent.set ⊆ r.extent.set
  apart : Apart rs'
  off : ∀ r ∈ rs', (Extent.mk base (pages * 4096)).Apart r.extent

theorem lastFirst_perm (rs : List Region) : (match rs.getLast? with
    | none => []
    | some last => last :: rs.dropLast).Perm rs := by
  cases hl : rs.getLast? with
  | none => rw [List.getLast?_eq_none_iff.mp hl]
  | some last =>
    have hsplit := List.dropLast_append_getLast? last hl
    nth_rewrite 2 [← hsplit]
    exact (List.perm_append_singleton last rs.dropLast).symm

theorem regionAllocLoop_spec (hb : bound < 2 ^ 64) (hpos : 0 < pages) (rs : List Region) :
    ∀ base rs', (∀ r ∈ rs, RegionOk bound r) → Apart rs →
      regionAllocLoop pages rs = some (base, rs') → Taken bound base pages rs rs' := by
  induction rs with
  | nil =>
    intro base rs' _ _ h
    cases h
  | cons r rs ih =>
    intro base rs' hok hap h
    have hr := hok r List.mem_cons_self
    have hrs : ∀ x ∈ rs, RegionOk bound x := fun x hx => hok x (List.mem_cons_of_mem r hx)
    obtain ⟨hhead, htail⟩ := List.pairwise_cons.mp hap
    have hle := hr.le
    rw [regionAllocLoop] at h
    split_ifs at h with hlt hz
    · cases hloop : regionAllocLoop pages rs with
      | none =>
        rw [hloop] at h
        cases h
      | some q =>
        obtain ⟨b, qs⟩ := q
        rw [hloop] at h
        cases h
        have ht := ih base qs hrs htail hloop
        obtain ⟨x, hx, hsub⟩ := ht.sub
        refine ⟨⟨x, List.mem_cons_of_mem r hx, hsub⟩, ht.ge, ht.le, ht.aligned, fun y hy => ?_,
          fun y hy => ?_, List.pairwise_cons.mpr ⟨fun y hy => ?_, ht.apart⟩, fun y hy => ?_⟩
        · rcases List.mem_cons.mp hy with rfl | hy
          · exact hr
          · exact ht.ok y hy
        · rcases List.mem_cons.mp hy with rfl | hy
          · exact ⟨y, List.mem_cons_self, subset_rfl⟩
          · obtain ⟨z, hz, hyz⟩ := ht.part y hy
            exact ⟨z, List.mem_cons_of_mem r hz, hyz⟩
        · obtain ⟨z, hz, hyz⟩ := ht.part y hy
          exact ((hhead z hz).symm.mono hyz).symm
        · rcases List.mem_cons.mp hy with rfl | hy
          · exact (hhead x hx).symm.mono hsub
          · exact ht.off y hy
    · cases h
      have hmul := Nat.mul_le_mul_right 4096 (Nat.not_lt.mp hlt)
      have hsub := front_sub (Nat.not_lt.mp hlt)
      have hbase : r.base + pages * 4096 ≤ bound := (Nat.add_le_add_left hmul _).trans hle
      have hperm := lastFirst_perm rs
      refine ⟨⟨r, List.mem_cons_self, hsub⟩, hr.ge, hbase, hr.aligned, fun y hy => ?_,
        fun y hy => ?_, Apart.perm htail hperm.symm, fun y hy => ?_⟩
      · exact hrs y (hperm.mem_iff.mp hy)
      · exact ⟨y, List.mem_cons_of_mem r (hperm.mem_iff.mp hy), subset_rfl⟩
      · exact (hhead y (hperm.mem_iff.mp hy)).mono hsub
    · cases h
      have hmul := Nat.mul_le_mul_right 4096 (Nat.not_lt.mp hlt)
      have hmod : (r.base + pages * 4096) % 2 ^ 64 = r.base + pages * 4096 :=
        Nat.mod_eq_of_lt (by omega)
      rw [hmod]
      have hsub := front_sub (Nat.not_lt.mp hlt)
      have hbase : r.base + pages * 4096 ≤ bound := (Nat.add_le_add_left hmul _).trans hle
      -- the rest of the region ends where the region did
      have hend : r.base + pages * 4096 + (r.pages - pages) * 4096 = r.base + r.pages * 4096 := by
        rw [Nat.sub_mul, Nat.add_assoc, Nat.add_sub_cancel' hmul]
      have hleft : (Region.extent ⟨r.base + pages * 4096, r.pages - pages⟩).set ⊆ r.extent.set :=
        Extent.sub_of_le (Nat.le_add_right _ _) (Nat.le_of_eq hend)
      have hge := hr.ge
      have hal := hr.aligned
      refine ⟨⟨r, List.mem_cons_self, hsub⟩, hr.ge, hbase, hr.aligned, fun y hy => ?_,
        fun y hy => ?_, List.pairwise_cons.mpr ⟨fun y hy => ?_, htail⟩, fun y hy => ?_⟩
      · rcases List.mem_cons.mp hy with rfl | hy
        · exact ⟨by dsimp only; omega, hend.trans_le hle, by dsimp only; omega,
            by dsimp only; omega⟩
        · exact hrs y hy
      · rcases List.mem_cons.mp hy with rfl | hy
        · exact ⟨r, List.mem_cons_self, hleft⟩
        · exact ⟨y, List.mem_cons_of_mem r hy, subset_rfl⟩
      · exact (hhead y hy).mono hleft
      · rcases List.mem_cons.mp hy with rfl | hy
        · refine Extent.apart_iff.mpr ?_
          unfold Region.extent
          dsimp only
          omega
        · exact (hhead y hy).mono hsub

/-- What a merge leaves: whatever is apart from the regions and from the freed extent is apart
from the regions it makes. -/
structure Merged (bound : ℕ) (freed : Extent) (rs rs' : List Region) : Prop where
  ok : ∀ r ∈ rs', RegionOk bound r
  off : ∀ e : Extent, e.Apart freed → (∀ r ∈ rs, e.Apart r.extent) → ∀ r ∈ rs', e.Apart r.extent
  apart : Apart rs'

theorem regionMergeLoop_spec (hb : bound < 2 ^ 64) (hge : AU_DRIVER_BASE_START ≤ base)
    (hle : base + pages * 4096 ≤ bound) (hal : base % 4096 = 0) (rs : List Region) :
    ∀ rs', (∀ r ∈ rs, RegionOk bound r) → Apart rs →
      (∀ r ∈ rs, (Extent.mk base (pages * 4096)).Apart r.extent) →
      regionMergeLoop base pages rs = some rs' →
      Merged bound ⟨base, pages * 4096⟩ rs rs' := by
  induction rs with
  | nil =>
    intro rs' _ _ _ h
    cases h
  | cons r rs ih =>
    intro rs' hok hap hoff h
    have hr := hok r List.mem_cons_self
    have hrs : ∀ x ∈ rs, RegionOk bound x := fun x hx => hok x (List.mem_cons_of_mem r hx)
    obtain ⟨hhead, htail⟩ := List.pairwise_cons.mp hap
    have hrle := hr.le
    have hrge := hr.ge
    have hral := hr.aligned
    have hrpos := hr.pos
    have hmod : (r.base + r.pages * 4096) % 2 ^ 64 = r.base + r.pages * 4096 :=
      Nat.mod_eq_of_lt (by omega)
    have hmod' : (base + pages * 4096) % 2 ^ 64 = base + pages * 4096 :=
      Nat.mod_eq_of_lt (by omega)
    -- a merged region `m`, made of `r` and the freed extent
    have hmade : ∀ m : Region, RegionOk bound m →
        m.extent.set ⊆ r.extent.set ∪ (Extent.mk base (pages * 4096)).set →
        Merged bound ⟨base, pages * 4096⟩ (r :: rs) (m :: rs) := by
      intro m hm hsub
      have hjoin : ∀ e : Extent, e.Apart ⟨base, pages * 4096⟩ → e.Apart r.extent →
          e.Apart m.extent := fun e h h' => (Extent.Apart.join h'.symm h.symm hsub).symm
      refine ⟨fun y hy => ?_, fun e he hall y hy => ?_, List.pairwise_cons.mpr
        ⟨fun y hy => ?_, htail⟩⟩
      · rcases List.mem_cons.mp hy with rfl | hy
        · exact hm
        · exact hrs y hy
      · rcases List.mem_cons.mp hy with rfl | hy
        · exact hjoin e he (hall r List.mem_cons_self)
        · exact hall y (List.mem_cons_of_mem r hy)
      · exact (hjoin y.extent (hoff y (List.mem_cons_of_mem r hy)).symm (hhead y hy).symm).symm
    rw [regionMergeLoop, hmod, hmod'] at h
    split_ifs at h with h1 h2
    · cases h
      refine hmade _ ⟨hrge, ?_, hral, Nat.add_pos_left hrpos _⟩ ?_
      · dsimp only
        rw [Nat.add_mul, ← Nat.add_assoc, h1]
        exact hle
      have := Extent.join_sub (a := r.extent) (b := ⟨base, pages * 4096⟩) h1
      unfold Region.extent at *
      dsimp only at *
      rwa [Nat.add_mul]
    · cases h
      refine hmade _ ⟨hge, ?_, hal, Nat.add_pos_left hrpos _⟩ ?_
      · dsimp only
        rw [Nat.add_mul, Nat.add_comm (r.pages * 4096), ← Nat.add_assoc, h2]
        exact hrle
      have := Extent.join_sub (a := ⟨base, pages * 4096⟩) (b := r.extent) h2
      unfold Region.extent at *
      dsimp only at *
      rw [Nat.add_mul, Nat.add_comm (r.pages * 4096), Set.union_comm]
      exact this
    · cases hloop : regionMergeLoop base pages rs with
      | none =>
        rw [hloop] at h
        cases h
      | some qs =>
        rw [hloop] at h
        cases h
        have hm := ih qs hrs htail (fun x hx => hoff x (List.mem_cons_of_mem r hx)) hloop
        refine ⟨fun y hy => ?_, fun e he hall y hy => ?_, List.pairwise_cons.mpr
          ⟨fun y hy => ?_, hm.apart⟩⟩
        · rcases List.mem_cons.mp hy with rfl | hy
          · exact hr
          · exact hm.ok y hy
        · rcases List.mem_cons.mp hy with rfl | hy
          · exact hall y List.mem_cons_self
          · exact hm.off e he (fun x hx => hall x (List.mem_cons_of_mem r hx)) y hy
        · exact hm.off r.extent (hoff r List.mem_cons_self).symm hhead y hy

/-! ## The invariant of the regions -/

structure RegionInv (s : State) : Prop where
  bump_ge : AU_DRIVER_BASE_START ≤ s.driver_load_base
  bump_le : s.driver_load_base ≤ KERNEL_BASE_ADDRESS
  bump_aligned : s.driver_load_base % 4096 = 0
  absent : ∀ i, (s.drivers i).present = false → (s.drivers i).region_pages = 0
  opted : ∀ i, (s.drivers i).unload = true → 0 < (s.drivers i).region_pages
  ge : ∀ i, 0 < (s.drivers i).region_pages → AU_DRIVER_BASE_START ≤ (s.drivers i).new_load_base
  le : ∀ i, 0 < (s.drivers i).region_pages →
    (s.drivers i).new_load_base + (s.drivers i).region_pages * 4096 ≤ s.driver_load_base
  aligned : ∀ i, 0 < (s.drivers i).region_pages → (s.drivers i).new_load_base % 4096 = 0
  free : ∀ r ∈ s.free_regions, RegionOk s.driver_load_base r
  images : ∀ i j, i ≠ j → (s.drivers i).extent.Apart (s.drivers j).extent
  off : ∀ i, ∀ r ∈ s.free_regions, (s.drivers i).extent.Apart r.extent
  regions : Apart s.free_regions

theorem RegionInv.ranges (h : RegionInv s) : Ranges s :=
  ⟨h.images, h.off, h.regions, h.le, fun r hr _ => (h.free r hr).le⟩

/-- What a call does not change. -/
structure SameRegions (s s' : State) : Prop where
  count : s'.count = s.count
  bump : s'.driver_load_base = s.driver_load_base
  free : s'.free_regions = s.free_regions
  present : ∀ i, (s'.drivers i).present = (s.drivers i).present
  unload : ∀ i, (s'.drivers i).unload = (s.drivers i).unload
  base : ∀ i, (s'.drivers i).new_load_base = (s.drivers i).new_load_base
  pages : ∀ i, (s'.drivers i).region_pages = (s.drivers i).region_pages

theorem SameRegions.refl (s : State) : SameRegions s s :=
  ⟨rfl, rfl, rfl, fun _ => rfl, fun _ => rfl, fun _ => rfl, fun _ => rfl⟩

theorem SameRegions.trans {s'' : State} (h : SameRegions s s') (h' : SameRegions s' s'') :
    SameRegions s s'' :=
  ⟨h'.count.trans h.count, h'.bump.trans h.bump, h'.free.trans h.free,
    fun i => (h'.present i).trans (h.present i), fun i => (h'.unload i).trans (h.unload i),
    fun i => (h'.base i).trans (h.base i), fun i => (h'.pages i).trans (h.pages i)⟩

theorem SameRegions.extent (h : SameRegions s s') (i : ℕ) :
    (s'.drivers i).extent = (s.drivers i).extent := by
  unfold AuDriver.extent
  rw [h.base, h.pages]

theorem SameRegions.contains (h : SameRegions s s') (i addr : ℕ) :
    (s'.drivers i).Contains addr ↔ (s.drivers i).Contains addr := by
  unfold AuDriver.Contains
  rw [h.present, h.base, h.pages]

theorem RegionInv.congr (hi : RegionInv s) (h : SameRegions s s') : RegionInv s' := by
  constructor
  · rw [h.bump]
    exact hi.bump_ge
  · rw [h.bump]
    exact hi.bump_le
  · rw [h.bump]
    exact hi.bump_aligned
  · intro i
    rw [h.present, h.pages]
    exact hi.absent i
  · intro i
    rw [h.unload, h.pages]
    exact hi.opted i
  · intro i
    rw [h.pages, h.base]
    exact hi.ge i
  · intro i
    rw [h.pages, h.base, h.bump]
    exact hi.le i
  · intro i
    rw [h.pages, h.base]
    exact hi.aligned i
  · rw [h.free, h.bump]
    exact hi.free
  · intro i j
    rw [h.extent, h.extent]
    exact hi.images i j
  · intro i
    rw [h.extent, h.free]
    exact hi.off i
  · rw [h.free]
    exact hi.regions

/-- An allocation, and where the regions are then. -/
structure Allocated (s s' : State) (base pages : ℕ) : Prop where
  drivers : s'.drivers = s.drivers
  count : s'.count = s.count
  callbacks : s'.callbacks = s.callbacks
  page : s'.page = s.page
  mmioBase : s'.mmioBase = s.mmioBase
  inv : RegionInv s'
  ge : AU_DRIVER_BASE_START ≤ base
  le : base + pages * 4096 ≤ s'.driver_load_base
  aligned : base % 4096 = 0
  images : ∀ i, (Extent.mk base (pages * 4096)).Apart (s.drivers i).extent
  free : ∀ r ∈ s'.free_regions, (Extent.mk base (pages * 4096)).Apart r.extent

theorem base_lt : KERNEL_BASE_ADDRESS < 2 ^ 64 := by decide

theorem RegionInv.alloc (hi : RegionInv s) (hpos : 0 < pages) (hle : pages ≤ 2 ^ 20)
    (hk : (auDrvRegionAlloc s pages).2.driver_load_base ≤ KERNEL_BASE_ADDRESS) :
    Allocated s (auDrvRegionAlloc s pages).2 (auDrvRegionAlloc s pages).1 pages := by
  unfold auDrvRegionAlloc at *
  have hbound : s.driver_load_base < 2 ^ 64 := hi.bump_le.trans_lt base_lt
  cases hloop : regionAllocLoop pages s.free_regions with
  | some q =>
    obtain ⟨base, rs⟩ := q
    have ht := regionAllocLoop_spec hbound hpos s.free_regions base rs hi.free hi.regions hloop
    obtain ⟨r, hr, hsub⟩ := ht.sub
    refine ⟨rfl, rfl, rfl, rfl, rfl, ⟨hi.bump_ge, hi.bump_le, hi.bump_aligned, hi.absent, hi.opted,
      hi.ge, hi.le, hi.aligned, ht.ok, hi.images, fun i x hx => ?_, ht.apart⟩, ht.ge, ht.le,
      ht.aligned, fun i => ?_, ht.off⟩
    · obtain ⟨z, hz, hxz⟩ := ht.part x hx
      exact ((hi.off i z hz).symm.mono hxz).symm
    · exact (hi.off i r hr).symm.mono hsub
  | none =>
    rw [hloop] at hk
    dsimp only at hk ⊢
    have hbytes : pages * 4096 ≤ 2 ^ 20 * 4096 := Nat.mul_le_mul_right 4096 hle
    have hkernel := hi.bump_le
    have hmod : (s.driver_load_base + pages * 4096) % 2 ^ 64 = s.driver_load_base + pages * 4096 := by
      apply Nat.mod_eq_of_lt
      unfold KERNEL_BASE_ADDRESS at hkernel
      omega
    rw [hmod] at hk ⊢
    have hal := hi.bump_aligned
    have hup : s.driver_load_base ≤ s.driver_load_base + pages * 4096 := Nat.le_add_right ..
    refine ⟨rfl, rfl, rfl, rfl, rfl, ⟨hi.bump_ge.trans hup, hk, ?_, hi.absent, hi.opted, hi.ge,
      fun i hp => (hi.le i hp).trans hup, hi.aligned,
      fun r hr => (hi.free r hr).mono ((hi.free r hr).le.trans hup), hi.images, hi.off,
      hi.regions⟩, hi.bump_ge, Nat.le_refl _, hal, fun i => ?_, fun r hr => ?_⟩
    · rw [Nat.add_mul_mod_self_right]
      exact hal
    · refine Extent.apart_iff.mpr ?_
      by_cases hp : 0 < (s.drivers i).region_pages
      · exact .inr (.inr (.inr (hi.le i hp)))
      · have hz : (s.drivers i).extent.size = 0 := by
          unfold AuDriver.extent
          rw [Nat.eq_zero_of_not_pos hp, Nat.zero_mul]
        exact .inr (.inl hz)
    · exact Extent.apart_iff.mpr (.inr (.inr (.inr (hi.free r hr).le)))

/-- What is known of the free table and of the bump pointer alone. -/
structure TableOk (s : State) : Prop where
  bump_ge : AU_DRIVER_BASE_START ≤ s.driver_load_base
  bump_le : s.driver_load_base ≤ KERNEL_BASE_ADDRESS
  bump_aligned : s.driver_load_base % 4096 = 0
  free : ∀ r ∈ s.free_regions, RegionOk s.driver_load_base r
  regions : Apart s.free_regions

/-- A region is given back. -/
structure Freed (s s' : State) (freed : Extent) : Prop where
  drivers : s'.drivers = s.drivers
  count : s'.count = s.count
  callbacks : s'.callbacks = s.callbacks
  page : s'.page = s.page
  mmioBase : s'.mmioBase = s.mmioBase
  bump_ge : AU_DRIVER_BASE_START ≤ s'.driver_load_base
  bump_le : s'.driver_load_base ≤ s.driver_load_base
  bump_aligned : s'.driver_load_base % 4096 = 0
  free : ∀ r ∈ s'.free_regions, RegionOk s'.driver_load_base r
  regions : Apart s'.free_regions
  off : ∀ e : Extent, e.Apart freed → (∀ r ∈ s.free_regions, e.Apart r.extent) →
    ∀ r ∈ s'.free_regions, e.Apart r.extent
  le : ∀ e : Extent, 0 < e.size → e.Apart freed → e.base + e.size ≤ s.driver_load_base →
    e.base + e.size ≤ s'.driver_load_base

theorem TableOk.release (hi : TableOk s) (hpos : 0 < pages)
    (hge : AU_DRIVER_BASE_START ≤ base) (hle : base + pages * 4096 ≤ s.driver_load_base)
    (hal : base % 4096 = 0)
    (hoff : ∀ r ∈ s.free_regions, (Extent.mk base (pages * 4096)).Apart r.extent) :
    Freed s (auDrvRegionFree s base pages) ⟨base, pages * 4096⟩ := by
  have hbound : s.driver_load_base < 2 ^ 64 := hi.bump_le.trans_lt base_lt
  have hbytes : 0 < pages * 4096 := Nat.mul_pos hpos (by omega)
  have hmod : (base + pages * 4096) % 2 ^ 64 = base + pages * 4096 :=
    Nat.mod_eq_of_lt (hle.trans_lt hbound)
  unfold auDrvRegionFree
  rw [hmod]
  by_cases hend : base + pages * 4096 = s.driver_load_base
  · rw [if_pos hend]
    -- the last region: everything else ends below it
    have hbelow : ∀ e : Extent, 0 < e.size → e.Apart ⟨base, pages * 4096⟩ →
        e.base + e.size ≤ s.driver_load_base → e.base + e.size ≤ base := by
      intro e he hap hel
      have := Extent.apart_iff.mp hap
      dsimp only at this
      omega
    refine ⟨rfl, rfl, rfl, rfl, rfl, hge, by dsimp only; omega, hal, fun r hr => ?_, hi.regions,
      fun e _ hall => hall, hbelow⟩
    have hr' := hi.free r hr
    exact hr'.mono (hbelow r.extent (Nat.mul_pos hr'.pos (by omega)) (hoff r hr).symm hr'.le)
  · rw [if_neg hend]
    cases hloop : regionMergeLoop base pages s.free_regions with
    | some rs =>
      have hm := regionMergeLoop_spec hbound hge hle hal s.free_regions rs hi.free hi.regions hoff
        hloop
      exact ⟨rfl, rfl, rfl, rfl, rfl, hi.bump_ge, Nat.le_refl _, hi.bump_aligned, hm.ok, hm.apart,
        hm.off, fun e _ _ h => h⟩
    | none =>
      dsimp only
      split_ifs with hroom
      · refine ⟨rfl, rfl, rfl, rfl, rfl, hi.bump_ge, Nat.le_refl _, hi.bump_aligned, fun r hr => ?_,
          List.pairwise_append.mpr ⟨hi.regions, List.pairwise_singleton _ _, fun r hr x hx => ?_⟩,
          fun e he hall r hr => ?_, fun e _ _ h => h⟩
        · rcases List.mem_append.mp hr with hr | hr
          · exact hi.free r hr
          · rw [List.mem_singleton.mp hr]
            exact ⟨hge, hle, hal, hpos⟩
        · rw [List.mem_singleton.mp hx]
          exact (hoff r hr).symm
        · rcases List.mem_append.mp hr with hr | hr
          · exact hall r hr
          · rw [List.mem_singleton.mp hr]
            exact he
      · exact ⟨rfl, rfl, rfl, rfl, rfl, hi.bump_ge, Nat.le_refl _, hi.bump_aligned, hi.free,
          hi.regions, fun e _ hall => hall, fun e _ _ h => h⟩

end Xeneva.Audrv
