import Xeneva.Mm.PmmInit

/-!
# The pages of the boot map

What initialisation publishes, against the boot map itself: the whole pages of the usable
bytes, without the pages that a reservation touches and without the descriptors.
-/

namespace Xeneva.Pmm
open Base

variable {L : Layout} {st : State} {m : ℕ → List ℕ} {A : Finset ℕ} {info : KernelBootInfo}
  {plan : Plan} {s : Machine} {t t' : Tables} {p : ℕ}

/-- The page lies in the bytes from `r.1` up to `r.2`. -/
def WholeIn (r : ℕ × ℕ) (p : ℕ) : Prop := r.1 ≤ p * PAGE_SIZE ∧ (p + 1) * PAGE_SIZE ≤ r.2

/-- The page ends behind `r.1` and begins before `r.2`. -/
def Touches (r : ℕ × ℕ) (p : ℕ) : Prop := r.1 < (p + 1) * PAGE_SIZE ∧ p * PAGE_SIZE < r.2

def EfiMemoryDescriptor.bytes (d : EfiMemoryDescriptor) : ℕ × ℕ :=
  (d.phys_start.toNat, d.phys_start.toNat + d.num_pages.toNat * PAGE_SIZE)

def LBMemoryRegion.bytes (r : LBMemoryRegion) : ℕ × ℕ :=
  (r.base.toNat, r.base.toNat + r.pageCount.toNat * PAGE_SIZE)

def BootMap.usableRanges : BootMap → List (ℕ × ℕ)
  | .uefi map => (map.filter (·.type = 7)).map (·.bytes)
  | .littleboot none => []
  | .littleboot (some lb) => lb.usable_memory_map.map (·.bytes)

def AuLittleBootProtocol.reservedRanges (lb : AuLittleBootProtocol) : List (ℕ × ℕ) :=
  [(lb.device_tree_base.toNat, lb.device_tree_end.toNat),
    (lb.initrd_start.toNat, lb.initrd_end.toNat),
    (lb.littleBootStart.toNat, lb.littleBootEnd.toNat)]

def BootMap.reservedRanges : BootMap → List (ℕ × ℕ)
  | .littleboot (some lb) => lb.reservedRanges
  | _ => []

/-- The low megabyte, what the boot map reserves, and the pages of the loader's stack list. -/
def KernelBootInfo.reservedRanges (info : KernelBootInfo) : List (ℕ × ℕ) :=
  (0, 0x100000) :: info.boot.reservedRanges ++
    info.reserved_mem.map fun a => (a.toNat, a.toNat + 1)

def Usable (info : KernelBootInfo) (p : ℕ) : Prop := ∃ r ∈ info.boot.usableRanges, WholeIn r p

def Reserved (info : KernelBootInfo) (p : ℕ) : Prop := ∃ r ∈ info.reservedRanges, Touches r p

/-- Memory maps count whole pages, and no range reaches the last page of the addresses. -/
structure PageGranular (info : KernelBootInfo) : Prop where
  aligned : ∀ r ∈ info.boot.usableRanges, r.1 % PAGE_SIZE = 0
  usable : ∀ r ∈ info.boot.usableRanges, r.2 ≤ 2 ^ 64 - PAGE_SIZE
  reserved : ∀ r ∈ info.reservedRanges, r.2 ≤ 2 ^ 64 - PAGE_SIZE

/-- The pages of the free blocks, list by list. -/
def pooledPages (st : State) : List ℕ :=
  (List.range (PMM_MAX_ORDER + 1)).flatMap fun order =>
    (freeBlocks st order).flatMap fun head => List.range' head (2 ^ order)

/-- The descriptors have room in usable memory, and the free pages are the others, each once,
less what is held. -/
structure PoolExact (info : KernelBootInfo) (plan : Plan) (s : Machine) : Prop where
  room : plan.total_pages * sizeofPageDesc ≤
    (plan.metadata.last - plan.metadata.first) * PAGE_SIZE
  metadata : ∀ p, inRange plan.metadata p → Usable info p ∧ ¬ Reserved info p
  nodup : (pooledPages s.pmm).Nodup
  exact : ∀ p, p ∈ pooledPages s.pmm ↔ Usable info p ∧ ¬ Reserved info p ∧
    ¬ inRange plan.metadata p ∧ ∀ b ∈ s.held, p ∉ block b.1 b.2

theorem MachineInv.freeBlocks_eq (hi : MachineInv L m A s) (order : ℕ) :
    freeBlocks s.pmm order = m order :=
  (hi.blocks.linked order).walk_eq (hi.blocks.length_le order)

theorem mem_range'_block {h o : ℕ} : p ∈ List.range' h (2 ^ o) ↔ p ∈ block h o := by
  rw [List.mem_range'_1, mem_block]

theorem MachineInv.mem_pooledPages (hi : MachineInv L m A s) :
    p ∈ pooledPages s.pmm ↔ p ∈ L.pool ∧ p ∉ A := by
  simp only [pooledPages, List.mem_flatMap, List.mem_range, hi.freeBlocks_eq, mem_range'_block]
  constructor
  · rintro ⟨o, -, h, hm, hp⟩
    exact ⟨(hi.blocks.listed o h hm).2.1 hp, hi.blocks.not_alloc hm hp⟩
  · rintro ⟨hp, hA⟩
    obtain ⟨hm, hb⟩ := hi.blocks.free p hp (Finset.notMem_empty p) hA
    refine ⟨_, ?_, _, hm, hb⟩
    by_contra ho
    rw [hi.high _ (by omega)] at hm
    exact List.not_mem_nil hm

theorem MachineInv.nodup_pooledPages (hi : MachineInv L m A s) : (pooledPages s.pmm).Nodup := by
  unfold pooledPages
  simp only [hi.freeBlocks_eq]
  refine List.nodup_flatMap.mpr ⟨fun o _ => List.nodup_flatMap.mpr ⟨fun h _ => ?_, ?_⟩, ?_⟩
  · exact List.nodup_range'
  · refine (hi.blocks.nodup o).pairwise_of_forall_ne fun a ha b hb hab => ?_
    intro q hqa hqb
    have h1 := hi.blocks.listed_eq ha (mem_range'_block.mp hqa)
    have h2 := hi.blocks.listed_eq hb (mem_range'_block.mp hqb)
    exact hab (h1.1.symm.trans h2.1)
  · refine List.nodup_range.pairwise_of_forall_ne fun a _ b _ hab => ?_
    intro q hqa hqb
    obtain ⟨x, hx, hqx⟩ := List.mem_flatMap.mp hqa
    obtain ⟨y, hy, hqy⟩ := List.mem_flatMap.mp hqb
    have h1 := hi.blocks.listed_eq hx (mem_range'_block.mp hqx)
    have h2 := hi.blocks.listed_eq hy (mem_range'_block.mp hqy)
    exact hab (h1.2.symm.trans h2.2)

/-- The allocated pages are those of the held blocks. -/
theorem HeldInv.mem_alloc (hi : HeldInv L m A s) : p ∈ A ↔ ∃ b ∈ s.held, p ∈ block b.1 b.2 := by
  constructor
  · intro hp
    exact ⟨_, hi.holds p hp, (hi.blocks.alloc p hp).2.2.1⟩
  · rintro ⟨b, hb, hp⟩
    exact (hi.held b hb).1 hp

/-- No free page is lost between the reservations. -/
theorem exists_gap {last current : ℕ} {rs : List PmmRange} (h1 : current ≤ p) (h2 : p < last)
    (hc : ¬ covers rs p) : ∃ g ∈ gaps last rs current, inRange g p := by
  induction rs generalizing current with
  | nil =>
    refine ⟨⟨current, last⟩, ?_, inRange_iff.mpr ⟨h1, h2⟩⟩
    rw [gaps, if_pos (by omega)]
    exact List.mem_singleton_self _
  | cons r rs ih =>
    rw [covers_cons, not_or, inRange_iff] at hc
    obtain ⟨hr, hc⟩ := hc
    unfold gaps
    rw [if_neg (show ¬ current ≥ last by omega)]
    by_cases h3 : r.last ≤ current
    · rw [if_pos h3]
      exact ih h1 hc
    rw [if_neg h3]
    by_cases h4 : r.first ≥ last
    · rw [if_pos h4]
      exact ⟨⟨current, last⟩, List.mem_singleton_self _, inRange_iff.mpr ⟨h1, h2⟩⟩
    rw [if_neg h4, if_pos (show r.last > current by omega)]
    by_cases h5 : p < r.first
    · refine ⟨⟨current, r.first⟩, ?_, inRange_iff.mpr ⟨h1, h5⟩⟩
      rw [if_pos (show r.first > current by omega), if_pos (show r.first < last by omega)]
      exact List.mem_append_left _ (List.mem_singleton_self _)
    · obtain ⟨g, hg, hp⟩ := ih (show r.last ≤ p by omega) hc
      exact ⟨g, List.mem_append_right _ hg, hp⟩

/-- A page is in a gap of the plan exactly if it is usable and not reserved. -/
theorem PlanOk.mem_gaps (hp : PlanOk info plan) :
    (∃ g ∈ allGaps plan, inRange g p) ↔ covers plan.usable p ∧ ¬ covers plan.reserved p := by
  constructor
  · rintro ⟨g, hg, hpg⟩
    exact (hp.gaps.1 g hg).2 p hpg
  · rintro ⟨⟨u, hu, hpu⟩, hc⟩
    rw [inRange_iff] at hpu
    obtain ⟨g, hg, hpg⟩ := exists_gap hpu.1 hpu.2 hc
    exact ⟨g, List.mem_flatMap.mpr ⟨u, hu, hg⟩, hpg⟩

/-- The place of the descriptors is the start of a gap that is long enough. -/
theorem findMetadata_spec {usable reserved : List PmmRange} {pages start : ℕ}
    (h : findMetadata usable reserved pages = some start) :
    ∃ u ∈ usable, ∃ g ∈ gaps u.last reserved u.first, start = g.first ∧
      pages ≤ g.last - g.first := by
  obtain ⟨u, hu, h⟩ := List.exists_of_findSome?_eq_some h
  obtain ⟨g, hg, rfl⟩ := Option.map_eq_some_iff.mp h
  have hlen := List.find?_some hg
  exact ⟨u, hu, g, List.mem_of_find?_eq_some hg, rfl, by simpa using hlen⟩

/-- Reservations for the pages `R` are added, and nothing else. -/
structure Reserves (t t' : Tables) (R : ℕ → Prop) : Prop where
  usable : t'.usable = t.usable
  highest : t'.highest = t.highest
  covers : ∀ p, covers t'.reserved p ↔ covers t.reserved p ∨ R p

theorem Reserves.trans {t'' : Tables} {R S : ℕ → Prop} (h : Reserves t t' R)
    (h' : Reserves t' t'' S) : Reserves t t'' fun p => R p ∨ S p where
  usable := h'.usable.trans h.usable
  highest := h'.highest.trans h.highest
  covers p := by rw [h'.covers, h.covers, or_assoc]

theorem addReservation_spec {first last : ℕ} (h : addReservation t first last = .ok t') :
    Reserves t t' fun p => first ≤ p ∧ p < last := by
  unfold addReservation at h
  split_ifs at h with h1 h2
  · cases h
    refine ⟨rfl, rfl, fun p => ?_⟩
    rw [or_iff_left]
    omega
  · cases h
  · cases h
    refine ⟨rfl, rfl, fun p => ?_⟩
    rw [covers_append, covers_cons, inRange_iff]
    simp [covers]

theorem reservedMem_spec {mem : List UInt64}
    (h : mem.foldlM (fun (t : Tables) (address : UInt64) =>
      addReservation t (address >>> 12).toNat ((address >>> 12).toNat + 1)) t = .ok t') :
    Reserves t t' fun p => ∃ a ∈ mem, p = (a >>> 12).toNat := by
  induction mem generalizing t with
  | nil =>
    cases h
    exact ⟨rfl, rfl, fun p => by simp⟩
  | cons a mem ih =>
    rw [List.foldlM_cons] at h
    obtain ⟨t₁, h₁, h⟩ := ok_of_bind h
    have hr := (addReservation_spec h₁).trans (ih h)
    refine ⟨hr.usable, hr.highest, fun p => (hr.covers p).trans ?_⟩
    simp only [List.mem_cons, exists_eq_or_imp]
    apply or_congr_right
    apply or_congr_left
    omega

/-- Usable ranges for the pages `R` are added. -/
structure Lists (t t' : Tables) (R : ℕ → Prop) : Prop where
  reserved : t'.reserved = t.reserved
  covers : ∀ p, covers t'.usable p ↔ covers t.usable p ∨ R p

theorem foldlM_lists {α : Type} {f : Tables → α → Except Fatal Tables} {R : α → ℕ → Prop}
    {l : List α} (hf : ∀ t, ∀ a ∈ l, ∀ t', f t a = .ok t' → Lists t t' (R a))
    (h : l.foldlM f t = .ok t') : Lists t t' fun p => ∃ a ∈ l, R a p := by
  induction l generalizing t with
  | nil =>
    cases h
    exact ⟨rfl, fun p => by simp⟩
  | cons a l ih =>
    rw [List.foldlM_cons] at h
    obtain ⟨t₁, h₁, h⟩ := ok_of_bind h
    have hl := hf t a List.mem_cons_self t₁ h₁
    have hr := ih (fun t b hb => hf t b (List.mem_cons_of_mem a hb)) h
    refine ⟨hr.reserved.trans hl.reserved, fun p => ?_⟩
    rw [hr.covers, hl.covers, or_assoc]
    simp only [List.mem_cons, exists_eq_or_imp]

/-! ## The boot map -/

theorem pageNumber (a : UInt64) : (a >>> 12).toNat = a.toNat / PAGE_SIZE := by
  rw [UInt64.toNat_shiftRight, show (12 : UInt64).toNat % 64 = 12 from rfl,
    Nat.shiftRight_eq_div_pow]
  rfl

theorem pageNumber_alignUp {a : UInt64} (h : a.toNat ≤ 2 ^ 64 - PAGE_SIZE) :
    (alignUp a 4096 >>> 12).toNat = (a.toNat + (PAGE_SIZE - 1)) / PAGE_SIZE := by
  have hadd : (a + 4096 - 1).toNat = a.toNat + (PAGE_SIZE - 1) := by
    rw [UInt64.toNat_sub, UInt64.toNat_add]
    unfold PAGE_SIZE at h ⊢
    simp only [UInt64.reduceToNat]
    omega
  have hmask : (~~~ (4096 - 1 : UInt64)).toNat >>> 12 = 2 ^ 52 - 1 := by decide
  have hlt := (a + 4096 - 1).toNat_lt
  rw [pageNumber, alignUp, UInt64.toNat_and, show PAGE_SIZE = 2 ^ 12 from rfl,
    ← Nat.shiftRight_eq_div_pow, Nat.shiftRight_and_distrib, hmask,
    Nat.and_two_pow_sub_one_eq_mod, Nat.shiftRight_eq_div_pow, Nat.mod_eq_of_lt (by omega), hadd]
  rfl

/-- Reservations are rounded outward. -/
theorem touches_iff {start stop : UInt64} (h : stop.toNat ≤ 2 ^ 64 - PAGE_SIZE) :
    ((start >>> 12).toNat ≤ p ∧ p < (alignUp stop 4096 >>> 12).toNat) ↔
      Touches (start.toNat, stop.toNat) p := by
  rw [pageNumber, pageNumber_alignUp h]
  unfold Touches PAGE_SIZE
  dsimp only
  omega

theorem LBMemoryRegion.inRange_iff {r : LBMemoryRegion} (ha : r.bytes.1 % PAGE_SIZE = 0)
    (hu : r.bytes.2 ≤ 2 ^ 64 - PAGE_SIZE) :
    inRange ⟨(r.base >>> 12).toNat, (r.base >>> 12 + r.pageCount).toNat⟩ p ↔
      WholeIn r.bytes p := by
  unfold LBMemoryRegion.bytes PAGE_SIZE at ha hu
  rw [Pmm.inRange_iff, UInt64.toNat_add, pageNumber]
  unfold WholeIn LBMemoryRegion.bytes PAGE_SIZE
  dsimp only at ha hu ⊢
  omega

theorem EfiMemoryDescriptor.inRange_iff {d : EfiMemoryDescriptor}
    (ha : d.bytes.1 % PAGE_SIZE = 0) (hu : d.bytes.2 ≤ 2 ^ 64 - PAGE_SIZE) :
    inRange ⟨(d.phys_start >>> 12).toNat,
      ((d.phys_start + (d.num_pages <<< 12)) >>> 12).toNat⟩ p ↔ WholeIn d.bytes p := by
  unfold EfiMemoryDescriptor.bytes PAGE_SIZE at ha hu
  rw [Pmm.inRange_iff, pageNumber, pageNumber, UInt64.toNat_add, UInt64.toNat_shiftLeft,
    show (12 : UInt64).toNat % 64 = 12 from rfl, Nat.shiftLeft_eq]
  unfold WholeIn EfiMemoryDescriptor.bytes PAGE_SIZE
  dsimp only at ha hu ⊢
  omega

/-- The tables hold the boot map; the low megabyte may be in them already. -/
structure Collected (map : BootMap) (t : Tables) : Prop where
  usable : ∀ p, covers t.usable p ↔ ∃ r ∈ map.usableRanges, WholeIn r p
  reserved : ∀ p, covers t.reserved p ∨ p < 0x100 ↔
    p < 0x100 ∨ ∃ r ∈ map.reservedRanges, Touches r p

theorem not_covers_nil : ¬ covers [] p := by
  rintro ⟨r, hr, -⟩
  exact List.not_mem_nil hr

theorem Lists.append {r : PmmRange} {R : ℕ → Prop} (hu : t'.usable = t.usable ++ [r])
    (hr : t'.reserved = t.reserved) (hR : ∀ p, inRange r p ↔ R p) : Lists t t' R := by
  refine ⟨hr, fun p => ?_⟩
  rw [hu, covers_append, covers_cons, hR p, or_iff_left (not_covers_nil (p := p))]

theorem Lists.nothing {R : ℕ → Prop} (hu : t'.usable = t.usable)
    (hr : t'.reserved = t.reserved) (hR : ∀ p, ¬ R p) : Lists t t' R :=
  ⟨hr, fun p => by rw [hu, or_iff_left (hR p)]⟩

theorem collectUefi_spec {map : List EfiMemoryDescriptor}
    (ha : ∀ r ∈ (BootMap.uefi map).usableRanges, r.1 % PAGE_SIZE = 0)
    (hu : ∀ r ∈ (BootMap.uefi map).usableRanges, r.2 ≤ 2 ^ 64 - PAGE_SIZE)
    (h : collectUefi map {} = .ok t) : Collected (.uefi map) t := by
  have hl : Lists {} t fun p => ∃ d ∈ map, d.type = 7 ∧ WholeIn d.bytes p := by
    refine foldlM_lists (fun t d hd t' ht => ?_) h
    have hmem : d.type = 7 → d.bytes ∈ (BootMap.uefi map).usableRanges := fun h7 =>
      List.mem_map.mpr ⟨d, List.mem_filter.mpr ⟨hd, decide_eq_true h7⟩, rfl⟩
    dsimp only at ht
    -- the highest address is none of the tables' business
    generalize ht₁ : (if d.type ≤ 7 ∧ d.phys_start + (d.num_pages <<< 12) > t.highest then
      { t with highest := d.phys_start + (d.num_pages <<< 12) } else t) = t₁ at ht
    have hsame : t₁.usable = t.usable ∧ t₁.reserved = t.reserved := by
      rw [← ht₁]
      split_ifs <;> exact ⟨rfl, rfl⟩
    by_cases h7 : d.type = 7 ∧ d.num_pages ≠ 0
    · rw [if_pos h7] at ht
      split_ifs at ht
      · cases ht
      · cases ht
        refine .append (congrArg (· ++ [_]) hsame.1) hsame.2 fun p => ?_
        rw [EfiMemoryDescriptor.inRange_iff (ha _ (hmem h7.1)) (hu _ (hmem h7.1)),
          and_iff_right h7.1]
    · rw [if_neg h7] at ht
      cases ht
      apply Lists.nothing hsame.1 hsame.2
      rintro p ⟨h7', hw⟩
      have h0 : d.num_pages = 0 := by
        by_contra h0
        exact h7 ⟨h7', h0⟩
      unfold WholeIn EfiMemoryDescriptor.bytes PAGE_SIZE at hw
      rw [h0] at hw
      simp only [UInt64.toNat_zero] at hw
      omega
  refine ⟨fun p => ?_, fun p => ?_⟩
  · rw [hl.covers, or_iff_right (not_covers_nil (p := p))]
    simp only [BootMap.usableRanges, List.mem_map, List.mem_filter, decide_eq_true_eq]
    constructor
    · rintro ⟨d, hd, h7, hw⟩
      exact ⟨d.bytes, ⟨d, ⟨hd, h7⟩, rfl⟩, hw⟩
    · rintro ⟨r, ⟨d, ⟨hd, h7⟩, rfl⟩, hw⟩
      exact ⟨d, hd, h7, hw⟩
  · rw [hl.reserved, or_iff_right (not_covers_nil (p := p))]
    simp [BootMap.reservedRanges]

theorem collectRegions_spec {regions : List LBMemoryRegion}
    (ha : ∀ r ∈ regions, r.bytes.1 % PAGE_SIZE = 0)
    (hu : ∀ r ∈ regions, r.bytes.2 ≤ 2 ^ 64 - PAGE_SIZE)
    (h : collectRegions regions t = .ok t') :
    Lists t t' fun p => ∃ r ∈ regions, WholeIn r.bytes p := by
  refine foldlM_lists (fun t r hr t' ht => ?_) h
  dsimp only at ht
  split_ifs at ht
  · cases ht
  · cases ht
    exact .append rfl rfl fun p => LBMemoryRegion.inRange_iff (ha r hr) (hu r hr)
  · cases ht
    exact .append rfl rfl fun p => LBMemoryRegion.inRange_iff (ha r hr) (hu r hr)

theorem collectLittleboot_spec {lb : AuLittleBootProtocol}
    (ha : ∀ r ∈ lb.usable_memory_map, r.bytes.1 % PAGE_SIZE = 0)
    (hu : ∀ r ∈ lb.usable_memory_map, r.bytes.2 ≤ 2 ^ 64 - PAGE_SIZE)
    (hr : ∀ r ∈ lb.reservedRanges, r.2 ≤ 2 ^ 64 - PAGE_SIZE)
    (h : collectLittleboot (some lb) {} = .ok t) : Collected (.littleboot (some lb)) t := by
  obtain ⟨t₁, h₁, h⟩ := ok_of_bind h
  obtain ⟨t₂, h₂, h⟩ := ok_of_bind h
  obtain ⟨t₃, h₃, h⟩ := ok_of_bind h
  obtain ⟨t₄, h₄, h₅⟩ := ok_of_bind h
  have hl := collectRegions_spec ha hu h₁
  have hres := (((addReservation_spec h₂).trans (addReservation_spec h₃)).trans
    (addReservation_spec h₄)).trans (addReservation_spec h₅)
  simp only [AuLittleBootProtocol.reservedRanges, List.forall_mem_cons] at hr
  refine ⟨fun p => ?_, fun p => ?_⟩
  · rw [hres.usable, hl.covers, or_iff_right (not_covers_nil (p := p))]
    simp [BootMap.usableRanges]
  · rw [hres.covers, hl.reserved, touches_iff hr.1, touches_iff hr.2.1, touches_iff hr.2.2.1,
      or_iff_right (not_covers_nil (p := p))]
    simp only [BootMap.reservedRanges, AuLittleBootProtocol.reservedRanges, List.mem_cons,
      List.not_mem_nil, or_false, exists_eq_or_imp, exists_eq_left]
    constructor
    · rintro ((((hp | hp) | hp) | hp) | hp)
      · exact .inl hp.2
      · exact .inr (.inl hp)
      · exact .inr (.inr (.inl hp))
      · exact .inr (.inr (.inr hp))
      · exact .inl hp
    · rintro (hp | hp | hp | hp)
      · exact .inr hp
      · exact .inl (.inl (.inl (.inr hp)))
      · exact .inl (.inl (.inr hp))
      · exact .inl (.inr hp)

theorem collectMap_spec (hg : PageGranular info) (h : collectMap info = .ok t) :
    Collected info.boot t := by
  have hr : ∀ r ∈ info.boot.reservedRanges, r.2 ≤ 2 ^ 64 - PAGE_SIZE := fun r hr =>
    hg.reserved r (List.mem_append_left _ (List.mem_cons_of_mem _ hr))
  have ha := hg.aligned
  have hu := hg.usable
  unfold collectMap at h
  cases hb : info.boot with
  | uefi map =>
    rw [hb] at h ha hu
    exact collectUefi_spec ha hu h
  | littleboot lb =>
    rw [hb] at h ha hu hr
    cases lb with
    | none => cases h
    | some lb =>
      exact collectLittleboot_spec (List.forall_mem_map.mp ha) (List.forall_mem_map.mp hu) hr h

/-- The plan is the boot map. -/
structure PlanExact (info : KernelBootInfo) (plan : Plan) : Prop where
  usable : ∀ p, covers plan.usable p ↔ Usable info p
  reserved : ∀ p, covers plan.reserved p ↔ Reserved info p ∨ inRange plan.metadata p
  metadata : ∀ p, inRange plan.metadata p → Usable info p ∧ ¬ Reserved info p
  room : plan.total_pages * sizeofPageDesc ≤
    (plan.metadata.last - plan.metadata.first) * PAGE_SIZE

theorem reserved_iff : Reserved info p ↔ p < 0x100 ∨
    (∃ r ∈ info.boot.reservedRanges, Touches r p) ∨
      ∃ a ∈ info.reserved_mem, p = (a >>> 12).toNat := by
  have hlow : Touches (0, 0x100000) p ↔ p < 0x100 := by
    unfold Touches PAGE_SIZE
    dsimp only
    omega
  have hmem : ∀ a : UInt64, Touches (a.toNat, a.toNat + 1) p ↔ p = (a >>> 12).toNat := by
    intro a
    rw [pageNumber]
    unfold Touches PAGE_SIZE
    dsimp only
    omega
  simp only [Reserved, KernelBootInfo.reservedRanges, List.cons_append, List.mem_cons,
    List.mem_append, List.mem_map, or_and_right, exists_or, exists_eq_left,
    hlow, exists_exists_and_eq_and, hmem]

theorem planMemory_exact (hg : PageGranular info) (h : planMemory info = .ok plan) :
    PlanExact info plan := by
  unfold planMemory at h
  obtain ⟨t₁, h₁, h⟩ := ok_of_bind h
  dsimp only at h
  split_ifs at h with hno
  · cases h
  obtain ⟨t₂, h₂, h⟩ := ok_of_bind h
  obtain ⟨t₃, h₃, h⟩ := ok_of_bind h
  split at h
  · cases h
  rename_i start hstart
  obtain ⟨t₄, h₄, h⟩ := ok_of_bind h
  split_ifs at h with hmap
  · cases h
  cases h
  have hc := collectMap_spec hg h₁
  have hr₃ := (addReservation_spec h₂).trans (reservedMem_spec h₃)
  have hr₄ := addReservation_spec h₄
  have husable : ∀ p, covers (normalize t₁.usable) p ↔ Usable info p := fun p =>
    ((normalize_spec _).2 p).trans ((hc.usable p).trans Iff.rfl)
  have hres₃ : ∀ p, covers (normalize t₃.reserved) p ↔ Reserved info p := by
    intro p
    rw [(normalize_spec _).2 p, hr₃.covers, reserved_iff, ← or_assoc, ← or_assoc, ← hc.reserved]
    simp only [Nat.zero_le, true_and]
  have hres₄ : ∀ p, covers (normalize t₄.reserved) p ↔
      Reserved info p ∨ inRange ⟨start, start + (((alignUp t₃.highest 4096 >>> 12).toNat *
        sizeofPageDesc + (PAGE_SIZE - 1)) / PAGE_SIZE)⟩ p := by
    intro p
    rw [(normalize_spec _).2 p, hr₄.covers, hres₃, inRange_iff]
  refine ⟨husable, hres₄, fun p hp => ?_, ?_⟩
  · obtain ⟨u, hu, g, hgap, rfl, hlen⟩ := findMetadata_spec hstart
    have hproper : Proper t₃.reserved :=
      ((collectMap_ok h₁).trans ((addReservation_ok h₂).1.trans (reservedMem_ok h₃).1)).proper
        fun r hr => absurd hr List.not_mem_nil
    obtain ⟨h1, -, h2, h3⟩ :=
      (gaps_spec (normalize_spec t₃.reserved).1.sorted hproper.normalize).1 g hgap
    rw [inRange_iff] at hp
    dsimp only at hp
    have hpg : inRange g p := inRange_iff.mpr (by omega)
    refine ⟨(husable p).mp ⟨u, hu, inRange_iff.mpr (by omega)⟩, fun hc => ?_⟩
    exact h3 p hpg ((hres₃ p).mpr hc)
  · dsimp only
    unfold PAGE_SIZE
    omega

theorem gaps_le_total {bleed : Bool} (hplan : planMemory info = .ok plan)
    (hok : auPmmngrInitialize bleed info = .ok st) :
    ∀ g ∈ allGaps plan, g.last ≤ plan.total_pages := by
  unfold auPmmngrInitialize at hok
  obtain ⟨plan', hplan', hok⟩ := ok_of_bind hok
  obtain ⟨s, hs, -⟩ := ok_of_bind hok
  have he : plan' = plan := Except.ok.inj (hplan'.symm.trans hplan)
  subst he
  rw [foldlM_allGaps] at hs
  exact addFreeRange_le (fun g hg => ((planMemory_ok hplan).gaps.1 g hg).1) hs

/-- The pool is what is usable and not reserved. -/
theorem PlanOk.mem_pool (hp : PlanOk info plan) (hle : ∀ g ∈ allGaps plan,
    g.last ≤ plan.total_pages) :
    p ∈ (planLayout hp).pool ↔ covers plan.usable p ∧ ¬ covers plan.reserved p := by
  rw [← hp.mem_gaps]
  constructor
  · exact fun h => (Finset.mem_filter.mp h).2
  · rintro ⟨g, hg, hpg⟩
    have hlast := (inRange_iff.mp hpg).2
    have hend := hle g hg
    exact Finset.mem_filter.mpr ⟨Finset.mem_range.mpr (by omega), g, hg, hpg⟩

/-- After every initialisation, and in every run of the manager behind it, the descriptors
lie in usable memory that is not reserved, and the free pages are the whole usable pages
that are neither reserved, nor the descriptors', nor held, each once. -/
theorem exec_pool (bleed : Bool) (info : KernelBootInfo) (plan : Plan) (st : State)
    (hplan : planMemory info = .ok plan) (hok : auPmmngrInitialize bleed info = .ok st)
    (hg : PageGranular info) (hn : NoHugeRun info) (as : List Act) :
    PoolExact info plan (run step (boot st) as) := by
  obtain ⟨plan', hp, m, hplan', hi⟩ := auPmmngrInitialize_ok hok hn
  have he : plan' = plan := Except.ok.inj (hplan'.symm.trans hplan)
  subst he
  have hexact := planMemory_exact hg hplan
  obtain ⟨m', A, hi'⟩ := hi.run as
  refine ⟨hexact.room, hexact.metadata, hi'.nodup_pooledPages, fun p => ?_⟩
  rw [hi'.mem_pooledPages, hp.mem_pool (gaps_le_total hplan hok), hi'.mem_alloc, hexact.usable,
    hexact.reserved, not_or, and_assoc, and_assoc]
  simp only [not_exists, not_and]

theorem pageGranular_smallMap : PageGranular smallMap where
  aligned := by decide
  usable := by decide
  reserved := by decide

/-- The small map's twelve free pages, with four of them held. -/
theorem exec_pool_small : ∃ st, auPmmngrInitialize true smallMap = .ok st ∧
    PoolExact smallMap smallPlan (run step (boot st) [.alloc 3 0 0 0 7]) := by
  have hplan : planMemory smallMap = .ok smallPlan := by decide +kernel
  have hok : (auPmmngrInitialize true smallMap).toBool = true := by decide +kernel
  cases h : auPmmngrInitialize true smallMap with
  | error e =>
    rw [h] at hok
    cases hok
  | ok st =>
    exact ⟨st, rfl, exec_pool true smallMap smallPlan st hplan h pageGranular_smallMap
      noHugeRun_smallMap _⟩

/-- The small map, half a page further on. -/
def oddMap : KernelBootInfo where
  boot := .littleboot (some ⟨[⟨0x100800, 16⟩], 0, 0, 0, 0, 0, 0⟩)
  reserved_mem := []
  physical_direct_map_size := 0

/-- The descriptors begin on a page of which one half is not usable. -/
theorem not_exec_pool : ¬ ∀ bleed info plan st, planMemory info = .ok plan →
    auPmmngrInitialize bleed info = .ok st → ∀ as,
      PoolExact info plan (run step (boot st) as) := by
  intro hall
  have hplan : planMemory oddMap = .ok smallPlan := by decide +kernel
  have hok : (auPmmngrInitialize true oddMap).toBool = true := by decide +kernel
  cases hst : auPmmngrInitialize true oddMap with
  | error e =>
    rw [hst] at hok
    cases hok
  | ok st =>
    obtain ⟨⟨r, hr, hw⟩, -⟩ := (hall true oddMap smallPlan st hplan hst []).metadata 256 rfl
    rw [List.mem_singleton.mp hr] at hw
    exact absurd hw.1 (by decide)

end Xeneva.Pmm
