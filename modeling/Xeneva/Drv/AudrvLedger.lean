import Xeneva.Drv.AudrvRegions

/-!
# The ledger names what a driver has
-/

namespace Xeneva.Audrv
open Base

variable {s s' : State} {i j v virt size count addr : ℕ} {spi : ℤ} {r : AuResource}
  {owner o : Option ℕ} {P Q : ℕ → Prop}

/-- The pages of an entry are mapped by its driver, if at all. -/
structure MmioOk (s : State) (i : ℕ) (r : AuResource) : Prop where
  ge : MMIO_BASE ≤ r.value
  le : r.value + r.extra2 * 4096 ≤ s.mmioBase
  aligned : r.value % 4096 = 0
  own : ∀ k < r.extra2, ∀ o, s.page (r.value / 4096 + k) = some o → o = some i

/-- The handler of an entry is in its driver, if there is one. -/
structure IrqOk (s : State) (i : ℕ) (r : AuResource) : Prop where
  lt : (r.value : ℤ) < MAX_SPIS
  own : ∀ f, s.callbacks r.value = some f → (s.drivers i).Contains f

/-- In the driver region only the images are mapped, and nothing above the MMIO window. -/
structure LedgerInv (s : State) : Prop where
  absent : ∀ i, (s.drivers i).present = false → (s.drivers i).resources = []
  beyond : ∀ i, s.count ≤ i → (s.drivers i).resources = []
  images : ∀ v o, AU_DRIVER_BASE_START ≤ v * 4096 → v * 4096 < KERNEL_BASE_ADDRESS →
    s.page v = some o → ∃ i, v * 4096 ∈ (s.drivers i).extent.set ∧ o = some i
  above : ∀ v, s.mmioBase ≤ v * 4096 → s.page v = none
  mmio_ge : MMIO_BASE ≤ s.mmioBase
  mmio_aligned : s.mmioBase % 4096 = 0
  mmio : ∀ i, ∀ r ∈ (s.drivers i).resources, r.kind = .mmio → MmioOk s i r
  irq : ∀ i, ∀ r ∈ (s.drivers i).resources, r.kind = .irqSpi → IrqOk s i r

structure Inv (s : State) : Prop where
  regions : RegionInv s
  ledger : LedgerInv s

/-! ## What only takes away -/

/-- Entries, handlers and mappings go. -/
structure Less (s s' : State) : Prop where
  same : SameRegions s s'
  mmioBase : s'.mmioBase = s.mmioBase
  resources : ∀ i, ∀ r ∈ (s'.drivers i).resources, r ∈ (s.drivers i).resources
  page : ∀ v o, s'.page v = some o → s.page v = some o
  callbacks : ∀ spi f, s'.callbacks spi = some f → s.callbacks spi = some f

theorem Less.refl (s : State) : Less s s :=
  ⟨SameRegions.refl s, rfl, fun _ _ h => h, fun _ _ h => h, fun _ _ h => h⟩

theorem Less.trans {s'' : State} (h : Less s s') (h' : Less s' s'') : Less s s'' :=
  ⟨h.same.trans h'.same, h'.mmioBase.trans h.mmioBase,
    fun i r hr => h.resources i r (h'.resources i r hr),
    fun v o hv => h.page v o (h'.page v o hv),
    fun spi f hf => h.callbacks spi f (h'.callbacks spi f hf)⟩

theorem Inv.less (hi : Inv s) (h : Less s s') : Inv s' := by
  refine ⟨hi.regions.congr h.same, ?_⟩
  constructor
  · intro i hp
    rw [h.same.present] at hp
    apply List.eq_nil_iff_forall_not_mem.mpr
    intro r hr
    have hmem := h.resources i r hr
    rw [hi.ledger.absent i hp] at hmem
    exact List.not_mem_nil hmem
  · intro i hc
    rw [h.same.count] at hc
    apply List.eq_nil_iff_forall_not_mem.mpr
    intro r hr
    have hmem := h.resources i r hr
    rw [hi.ledger.beyond i hc] at hmem
    exact List.not_mem_nil hmem
  · intro v o hge hlt hv
    obtain ⟨i, hmem, ho⟩ := hi.ledger.images v o hge hlt (h.page v o hv)
    exact ⟨i, by rwa [h.same.extent], ho⟩
  · intro v hv
    rw [h.mmioBase] at hv
    apply Option.eq_none_iff_forall_ne_some.mpr
    intro o ho
    have := h.page v o ho
    rw [hi.ledger.above v hv] at this
    cases this
  · rw [h.mmioBase]
    exact hi.ledger.mmio_ge
  · rw [h.mmioBase]
    exact hi.ledger.mmio_aligned
  · intro i r hr hk
    have ho := hi.ledger.mmio i r (h.resources i r hr) hk
    exact ⟨ho.ge, by rw [h.mmioBase]; exact ho.le, ho.aligned,
      fun k hk o hv => ho.own k hk o (h.page _ _ hv)⟩
  · intro i r hr hk
    have ho := hi.ledger.irq i r (h.resources i r hr) hk
    exact ⟨ho.lt, fun f hf => (h.same.contains i f).mpr (ho.own f (h.callbacks _ _ hf))⟩

/-- An update of one driver that leaves its region alone. -/
theorem sameRegions_setDriver (d : AuDriver) (hp : d.present = (s.drivers i).present)
    (hu : d.unload = (s.drivers i).unload) (hb : d.new_load_base = (s.drivers i).new_load_base)
    (hr : d.region_pages = (s.drivers i).region_pages) : SameRegions s (s.setDriver i d) := by
  have hfield : ∀ {α : Type} (f : AuDriver → α), f d = f (s.drivers i) →
      ∀ j, f ((s.setDriver i d).drivers j) = f (s.drivers j) := by
    intro α f hf j
    unfold State.setDriver
    dsimp only
    by_cases he : j = i
    · rw [he, Function.update_self, hf]
    · rw [Function.update_of_ne he]
  exact ⟨rfl, rfl, rfl, hfield _ hp, hfield _ hu, hfield _ hb, hfield _ hr⟩

theorem less_setDriver (d : AuDriver) (hp : d.present = (s.drivers i).present)
    (hu : d.unload = (s.drivers i).unload) (hb : d.new_load_base = (s.drivers i).new_load_base)
    (hr : d.region_pages = (s.drivers i).region_pages)
    (hs : ∀ r ∈ d.resources, r ∈ (s.drivers i).resources) : Less s (s.setDriver i d) := by
  refine ⟨sameRegions_setDriver d hp hu hb hr, rfl, fun j r hr => ?_, fun _ _ h => h,
    fun _ _ h => h⟩
  unfold State.setDriver at hr
  dsimp only at hr
  by_cases he : j = i
  · rw [he, Function.update_self] at hr
    rw [he]
    exact hs r hr
  · rwa [Function.update_of_ne he] at hr

theorem less_untrack (s : State) (i : ℕ) (kind : AuResKind) (value : ℕ) :
    Less s (auDriverUntrack s i kind value) :=
  less_setDriver _ rfl rfl rfl rfl fun _ h => List.mem_of_mem_eraseP h

theorem less_untrackAny (s : State) (kind : AuResKind) (value : ℕ) :
    Less s (auDriverUntrackAny s kind value) := by
  unfold auDriverUntrackAny
  generalize List.range s.count = l
  induction l generalizing s with
  | nil => exact Less.refl s
  | cons i l ih => exact (less_untrack s i kind value).trans (ih _)

theorem less_freePages (s : State) (virt size : ℕ) : Less s (auFreePages s virt size) := by
  refine ⟨⟨rfl, rfl, rfl, fun _ => rfl, fun _ => rfl, fun _ => rfl, fun _ => rfl⟩, rfl,
    fun _ _ h => h, fun v o hv => ?_, fun _ _ h => h⟩
  unfold auFreePages at hv
  dsimp only at hv
  split_ifs at hv
  exact hv

theorem less_clear (s : State) (spi : ℤ) : Less s (GICClearSPIHandler s spi) := by
  unfold GICClearSPIHandler
  split_ifs
  · exact Less.refl s
  · refine ⟨⟨rfl, rfl, rfl, fun _ => rfl, fun _ => rfl, fun _ => rfl, fun _ => rfl⟩, rfl,
      fun _ _ h => h, fun _ _ h => h, fun x f hf => ?_⟩
    dsimp only at hf
    by_cases he : x = spi
    · rw [he, Function.update_self] at hf
      cases hf
    · rwa [Function.update_of_ne he] at hf

theorem less_dropAlias (s : State) (phys : ℕ) : Less s (auDriverDropMmioAlias s phys) := by
  unfold auDriverDropMmioAlias
  split
  · exact Less.refl s
  · exact (less_untrack s _ _ _).trans (less_freePages _ _ _)

theorem auDriverOwnerOf_spec (h : auDriverOwnerOf s addr = some i) :
    i < s.count ∧ (s.drivers i).Contains addr :=
  ⟨List.mem_range.mp (List.mem_of_find?_eq_some h), by simpa using List.find?_some h⟩

/-- A new entry of the ledger. -/
theorem Inv.track (hi : Inv s) (alloc : Bool)
    (hp : ∀ i, owner = some i → i < s.count ∧ (s.drivers i).present = true)
    (hm : ∀ i, owner = some i → r.kind = .mmio → MmioOk s i r)
    (hq : ∀ i, owner = some i → r.kind = .irqSpi → IrqOk s i r) :
    Inv (auDriverTrack s owner r alloc) := by
  unfold auDriverTrack
  cases owner with
  | none => exact hi
  | some i =>
    dsimp only
    split_ifs
    · have hsame := sameRegions_setDriver (s := s) (i := i)
        { s.drivers i with resources := r :: (s.drivers i).resources } rfl rfl rfl rfl
      have hcases : ∀ j, ∀ x ∈ ((s.setDriver i { s.drivers i with
          resources := r :: (s.drivers i).resources }).drivers j).resources,
          x ∈ (s.drivers j).resources ∨ j = i ∧ x = r := by
        intro j x hx
        unfold State.setDriver at hx
        dsimp only at hx
        by_cases he : j = i
        · rw [he, Function.update_self] at hx
          rcases List.mem_cons.mp hx with rfl | hx
          · exact .inr ⟨he, rfl⟩
          · exact .inl (he ▸ hx)
        · rw [Function.update_of_ne he] at hx
          exact .inl hx
      refine ⟨hi.regions.congr hsame, ⟨fun j hj => ?_, fun j hj => ?_,
        fun v o hge hlt hv => ?_, hi.ledger.above, hi.ledger.mmio_ge, hi.ledger.mmio_aligned,
        fun j x hx hk => ?_, fun j x hx hk => ?_⟩⟩
      · rw [hsame.present] at hj
        have hne : j ≠ i := by
          intro he
          rw [he, (hp i rfl).2] at hj
          cases hj
        show (Function.update s.drivers i _ j).resources = []
        rw [Function.update_of_ne hne]
        exact hi.ledger.absent j hj
      · have hne : j ≠ i := by
          intro he
          rw [he] at hj
          exact absurd (hp i rfl).1 (Nat.not_lt.mpr hj)
        show (Function.update s.drivers i _ j).resources = []
        rw [Function.update_of_ne hne]
        exact hi.ledger.beyond j hj
      · obtain ⟨j, hmem, ho⟩ := hi.ledger.images v o hge hlt hv
        exact ⟨j, by rwa [hsame.extent], ho⟩
      · have ho : MmioOk s j x := by
          rcases hcases j x hx with h | ⟨rfl, rfl⟩
          · exact hi.ledger.mmio j x h hk
          · exact hm j rfl hk
        exact ⟨ho.ge, ho.le, ho.aligned, ho.own⟩
      · have ho : IrqOk s j x := by
          rcases hcases j x hx with h | ⟨rfl, rfl⟩
          · exact hi.ledger.irq j x h hk
          · exact hq j rfl hk
        exact ⟨ho.lt, fun f hf => (hsame.contains j f).mpr (ho.own f hf)⟩
    · exact hi

/-! ## Mapping -/

/-- `owner` maps pages in `P`. -/
structure Maps (owner : Option ℕ) (P : ℕ → Prop) (s s' : State) : Prop where
  count : s'.count = s.count
  drivers : s'.drivers = s.drivers
  free : s'.free_regions = s.free_regions
  bump : s'.driver_load_base = s.driver_load_base
  callbacks : s'.callbacks = s.callbacks
  mmioBase : s'.mmioBase = s.mmioBase
  new : ∀ v o, s'.page v = some o → s.page v = some o ∨ o = owner ∧ P v

theorem Maps.refl (owner : Option ℕ) (P : ℕ → Prop) (s : State) : Maps owner P s s :=
  ⟨rfl, rfl, rfl, rfl, rfl, rfl, fun _ _ h => .inl h⟩

theorem Maps.trans {s'' : State} (h : Maps owner P s s') (h' : Maps owner P s' s'') :
    Maps owner P s s'' := by
  refine ⟨h'.count.trans h.count, h'.drivers.trans h.drivers, h'.free.trans h.free,
    h'.bump.trans h.bump, h'.callbacks.trans h.callbacks, h'.mmioBase.trans h.mmioBase,
    fun v o hv => ?_⟩
  rcases h'.new v o hv with h1 | h1
  · exact h.new v o h1
  · exact .inr h1

theorem Maps.sameRegions (h : Maps owner P s s') : SameRegions s s' := by
  refine ⟨h.count, h.bump, h.free, ?_, ?_, ?_, ?_⟩ <;> intro i <;> rw [h.drivers]

theorem maps_page (s : State) (owner : Option ℕ) (virt : ℕ) (mem : Bool) (hP : P (virt / 4096)) :
    Maps owner P s (auMapPage s owner virt mem) := by
  unfold auMapPage
  split_ifs
  · refine ⟨rfl, rfl, rfl, rfl, rfl, rfl, fun v o hv => ?_⟩
    dsimp only at hv
    by_cases he : v = virt / 4096
    · rw [he, Function.update_self] at hv
      cases hv
      exact .inr ⟨rfl, he ▸ hP⟩
    · rw [Function.update_of_ne he] at hv
      exact .inl hv
  · exact Maps.refl owner P s

theorem maps_fold (l : List ℕ) (place : ℕ → ℕ) (mem : ℕ → Bool)
    (hP : ∀ k ∈ l, P (place k / 4096)) : ∀ s,
    Maps owner P s (l.foldl (fun s k => auMapPage s owner (place k) (mem k)) s) := by
  induction l with
  | nil => exact fun s => Maps.refl owner P s
  | cons k l ih =>
    intro s
    exact (maps_page s owner (place k) (mem k) (hP k List.mem_cons_self)).trans
      (ih (fun x hx => hP x (List.mem_cons_of_mem k hx)) _)

theorem page_of_add (virt k : ℕ) : (virt + k * 4096) / 4096 = virt / 4096 + k :=
  Nat.add_mul_div_right _ _ (by omega)

theorem page_mul (h : virt % 4096 = 0) : virt / 4096 * 4096 = virt :=
  Nat.div_mul_cancel (Nat.dvd_of_mod_eq_zero h)

theorem kernel_le_mmio : KERNEL_BASE_ADDRESS ≤ MMIO_BASE := by decide

theorem driver_lt_kernel : AU_DRIVER_BASE_START < KERNEL_BASE_ADDRESS := by decide

/-- New pages of nobody in particular: outside the driver region and the MMIO window. -/
theorem Inv.maps (hi : Inv s) (h : Maps owner P s s')
    (hP : ∀ v, P v → v * 4096 < AU_DRIVER_BASE_START ∨
      KERNEL_BASE_ADDRESS ≤ v * 4096 ∧ v * 4096 < MMIO_BASE) : Inv s' := by
  have hsame := h.sameRegions
  have hconst := kernel_le_mmio
  have hconst' := driver_lt_kernel
  refine ⟨hi.regions.congr hsame, ?_⟩
  constructor
  · rw [h.drivers]
    exact hi.ledger.absent
  · rw [h.drivers, h.count]
    exact hi.ledger.beyond
  · intro v o hge hlt hv
    rw [h.drivers]
    rcases h.new v o hv with h1 | ⟨-, h1⟩
    · exact hi.ledger.images v o hge hlt h1
    · have := hP v h1
      omega
  · intro v hv
    rw [h.mmioBase] at hv
    apply Option.eq_none_iff_forall_ne_some.mpr
    intro o ho
    have hge := hi.ledger.mmio_ge
    rcases h.new v o ho with h1 | ⟨-, h1⟩
    · rw [hi.ledger.above v hv] at h1
      cases h1
    · have := hP v h1
      omega
  · rw [h.mmioBase]
    exact hi.ledger.mmio_ge
  · rw [h.mmioBase]
    exact hi.ledger.mmio_aligned
  · intro i r hr hk
    rw [h.drivers] at hr
    have ho := hi.ledger.mmio i r hr hk
    refine ⟨ho.ge, by rw [h.mmioBase]; exact ho.le, ho.aligned, fun k hk o hv => ?_⟩
    rcases h.new _ o hv with h1 | ⟨-, h1⟩
    · exact ho.own k hk o h1
    · have hpage := page_mul ho.aligned
      have hge := ho.ge
      have := hP _ h1
      omega
  · intro i r hr hk
    rw [h.drivers] at hr
    have ho := hi.ledger.irq i r hr hk
    refine ⟨ho.lt, fun f hf => ?_⟩
    rw [h.callbacks] at hf
    rw [h.drivers]
    exact ho.own f hf

/-- The new window is above all the pages there are. -/
theorem Inv.mapMmio (hi : Inv s) (owner : Option ℕ) (fails : List ℕ)
    (hlt : s.mmioBase + count * 4096 < 2 ^ 64) :
    Inv (auMapMmio s owner count fails) ∧
      ∀ i, owner = some i → ∀ extra, MmioOk (auMapMmio s owner count fails) i
        ⟨.mmio, s.mmioBase, extra, count⟩ := by
  have hal := hi.ledger.mmio_aligned
  have hge := hi.ledger.mmio_ge
  have hpage := page_mul hal
  have hconst := kernel_le_mmio
  have hmaps : Maps owner (fun v => s.mmioBase / 4096 ≤ v ∧ v < s.mmioBase / 4096 + count) s
      ((List.range count).foldl (fun x k => auMapPage x owner (s.mmioBase + k * 4096)
        (decide (s.mmioBase / 4096 + k ∉ fails))) s) := by
    refine maps_fold (List.range count) (fun k => s.mmioBase + k * 4096) _ (fun k hk => ?_) s
    rw [page_of_add]
    exact ⟨Nat.le_add_right .., Nat.add_lt_add_left (List.mem_range.mp hk) _⟩
  obtain ⟨s₁, hs⟩ : ∃ s₁, s₁ = auMapMmio s owner count fails := ⟨_, rfl⟩
  have hs' : s₁ = { (List.range count).foldl (fun x k => auMapPage x owner
      (s.mmioBase + k * 4096) (decide (s.mmioBase / 4096 + k ∉ fails))) s with
      mmioBase := s.mmioBase + count * 4096 } := by
    rw [hs]
    unfold auMapMmio
    dsimp only
    rw [Nat.mod_eq_of_lt hlt]
  rw [← hs]
  have hdrivers : s₁.drivers = s.drivers := by rw [hs']; exact hmaps.drivers
  have hcb : s₁.callbacks = s.callbacks := by rw [hs']; exact hmaps.callbacks
  have hbase : s₁.mmioBase = s.mmioBase + count * 4096 := by rw [hs']
  have hnew : ∀ v o, s₁.page v = some o → s.page v = some o ∨
      o = owner ∧ s.mmioBase / 4096 ≤ v ∧ v < s.mmioBase / 4096 + count := by
    rw [hs']
    exact hmaps.new
  have hsame : SameRegions s s₁ := by
    refine ⟨by rw [hs']; exact hmaps.count, by rw [hs']; exact hmaps.bump,
      by rw [hs']; exact hmaps.free, ?_, ?_, ?_, ?_⟩ <;> intro i <;> rw [hdrivers]
  refine ⟨⟨hi.regions.congr hsame, ?_⟩, fun i hown extra => ?_⟩
  · constructor
    · rw [hdrivers]
      exact hi.ledger.absent
    · rw [hdrivers, hsame.count]
      exact hi.ledger.beyond
    · intro v o h1 h2 hv
      rw [hdrivers]
      rcases hnew v o hv with h | ⟨-, h, -⟩
      · exact hi.ledger.images v o h1 h2 h
      · have := Nat.mul_le_mul_right 4096 h
        omega
    · intro v hv
      rw [hbase] at hv
      apply Option.eq_none_iff_forall_ne_some.mpr
      intro o ho
      rcases hnew v o ho with h | ⟨-, -, h⟩
      · rw [hi.ledger.above v ((Nat.le_add_right _ _).trans hv)] at h
        cases h
      · have := Nat.mul_le_mul_right 4096 (Nat.succ_le_of_lt h)
        rw [Nat.succ_mul, Nat.add_mul] at this
        omega
    · rw [hbase]
      exact hge.trans (Nat.le_add_right _ _)
    · rw [hbase, Nat.add_mul_mod_self_right]
      exact hal
    · intro i r hr hk
      rw [hdrivers] at hr
      have ho := hi.ledger.mmio i r hr hk
      refine ⟨ho.ge, ?_, ho.aligned, fun k hk o hv => ?_⟩
      · rw [hbase]
        exact ho.le.trans (Nat.le_add_right _ _)
      · rcases hnew _ o hv with h | ⟨-, h, -⟩
        · exact ho.own k hk o h
        · -- the windows of the ledger end where the new one begins
          have hle := ho.le
          have hpr := page_mul ho.aligned
          have h1 := Nat.mul_le_mul_right 4096 h
          have h2 := Nat.mul_le_mul_right 4096 (Nat.succ_le_of_lt hk)
          rw [Nat.add_mul] at h1
          rw [Nat.succ_mul] at h2
          omega
    · intro i r hr hk
      rw [hdrivers] at hr
      have ho := hi.ledger.irq i r hr hk
      refine ⟨ho.lt, fun f hf => ?_⟩
      rw [hcb] at hf
      rw [hdrivers]
      exact ho.own f hf
  · refine ⟨hge, by rw [hbase], hal, fun k hk o hv => ?_⟩
    rcases hnew _ o hv with h | ⟨h, -, -⟩
    · have habove := hi.ledger.above (s.mmioBase / 4096 + k) (by rw [Nat.add_mul]; omega)
      rw [habove] at h
      cases h
    · rw [h, hown]

/-! ## Calls -/

theorem Inv.registerSPI (hi : Inv s) (fptr : ℕ) (alloc : Bool)
    (hk : CallKind s (.registerSPI fptr spi alloc)) :
    Inv (trackedGICRegisterSPIHandler s fptr spi alloc) := by
  unfold trackedGICRegisterSPIHandler
  dsimp only
  -- no entry is about a line that the call takes
  have hi' : Inv (GICRegisterSPIHandler s fptr spi) := by
    unfold GICRegisterSPIHandler
    split_ifs with hfree
    · exact hi
    · have hnone : ∀ i, ∀ r ∈ (s.drivers i).resources, r.kind = .irqSpi → (r.value : ℤ) ≠ spi := by
        intro i r hr
        by_cases hlt : i < s.count
        · exact (hk.resolve_left hfree) i hlt r hr
        · rw [hi.ledger.beyond i (Nat.not_lt.mp hlt)] at hr
          exact absurd hr List.not_mem_nil
      refine ⟨hi.regions.congr ⟨rfl, rfl, rfl, fun _ => rfl, fun _ => rfl, fun _ => rfl,
        fun _ => rfl⟩, ⟨hi.ledger.absent, hi.ledger.beyond, hi.ledger.images, hi.ledger.above,
        hi.ledger.mmio_ge, hi.ledger.mmio_aligned, fun i r hr hk => ?_, fun i r hr hk => ?_⟩⟩
      · have ho := hi.ledger.mmio i r hr hk
        exact ⟨ho.ge, ho.le, ho.aligned, ho.own⟩
      · have ho := hi.ledger.irq i r hr hk
        refine ⟨ho.lt, fun f hf => ho.own f ?_⟩
        dsimp only at hf
        rwa [Function.update_of_ne (hnone i r hr hk)] at hf
  have hown : auDriverOwnerOf (GICRegisterSPIHandler s fptr spi) fptr = auDriverOwnerOf s fptr := by
    unfold GICRegisterSPIHandler
    split_ifs <;> rfl
  have hdrv : (GICRegisterSPIHandler s fptr spi).drivers = s.drivers := by
    unfold GICRegisterSPIHandler
    split_ifs <;> rfl
  have hcount : (GICRegisterSPIHandler s fptr spi).count = s.count := by
    unfold GICRegisterSPIHandler
    split_ifs <;> rfl
  split_ifs with hreg
  · obtain ⟨-, hget⟩ := hreg
    unfold GICGetSPIHandler at hget
    split_ifs at hget with hr
    rw [not_or, not_lt, ge_iff_le, not_le] at hr
    have hnat : ((spi.toNat : ℕ) : ℤ) = spi := Int.toNat_of_nonneg hr.1
    refine hi'.track alloc (fun i ho => ?_) (fun i _ hm => by cases hm) fun i ho _ => ?_
    · rw [hown] at ho
      have hspec := auDriverOwnerOf_spec ho
      exact ⟨hcount ▸ hspec.1, hdrv ▸ hspec.2.1⟩
    · rw [hown] at ho
      refine ⟨by dsimp only; rw [hnat]; exact hr.2, fun f hf => ?_⟩
      dsimp only at hf
      rw [hnat, hget] at hf
      cases hf
      rw [hdrv]
      exact (auDriverOwnerOf_spec ho).2
  · exact hi'

theorem auMapMmio_drivers (s : State) (owner : Option ℕ) (count : ℕ) (fails : List ℕ) :
    (auMapMmio s owner count fails).drivers = s.drivers ∧
      (auMapMmio s owner count fails).count = s.count := by
  have h : Maps owner (fun _ => True) s _ := maps_fold (List.range count)
    (fun k => s.mmioBase + k * 4096) (fun k => decide (s.mmioBase / 4096 + k ∉ fails))
    (fun _ _ => trivial) s
  exact ⟨h.drivers, h.count⟩

theorem Inv.call (hi : Inv s) (c : Call) (hk : CallKind s c) : Inv (call s c) := by
  have howner : ∀ {addr i : ℕ}, auDriverOwnerOf s addr = some i →
      i < s.count ∧ (s.drivers i).present = true :=
    fun h => ⟨(auDriverOwnerOf_spec h).1, (auDriverOwnerOf_spec h).2.1⟩
  cases c with
  | registerSPI fptr spi alloc => exact hi.registerSPI fptr alloc hk
  | clearSPI spi => exact hi.less (less_clear s spi)
  | allocPage caller phys alloc =>
    exact hi.track alloc (fun _ h => howner h) (fun _ _ h => by cases h) fun _ _ h => by cases h
  | allocPages caller phys pages alloc =>
    exact hi.track alloc (fun _ h => howner h) (fun _ _ h => by cases h) fun _ _ h => by cases h
  | releasePage phys => exact hi.less ((less_dropAlias s phys).trans (less_untrackAny _ _ _))
  | releasePages phys => exact hi.less (less_untrackAny s _ _)
  | mapMmio caller phys count fails alloc =>
    obtain ⟨hi', hok⟩ := hi.mapMmio (auDriverOwnerOf s caller) fails hk
    obtain ⟨hd, hc⟩ := auMapMmio_drivers s (auDriverOwnerOf s caller) count fails
    refine hi'.track alloc (fun i h => ?_) (fun i h _ => hok i h phys) fun _ _ h => by cases h
    rw [hd, hc]
    exact howner h
  | mapPage virt =>
    have hmaps : Maps none (fun v => v = virt / 4096) s (auMapPage s none virt true) :=
      maps_page s none virt true rfl
    refine hi.maps hmaps fun v hv => ?_
    have hk : virt < AU_DRIVER_BASE_START ∨ KERNEL_BASE_ADDRESS ≤ virt ∧ virt < MMIO_BASE := hk
    unfold AU_DRIVER_BASE_START KERNEL_BASE_ADDRESS MMIO_BASE at *
    omega
  | freePages virt size => exact hi.less (less_freePages s virt size)
  | ref i =>
    unfold Audrv.call
    dsimp only
    split_ifs
    · exact hi.less (less_setDriver _ rfl rfl rfl rfl fun _ h => h)
    · exact hi
  | unref i =>
    unfold Audrv.call
    dsimp only
    split_ifs
    · exact hi.less (less_setDriver _ rfl rfl rfl rfl fun _ h => h)
    · exact hi

theorem Inv.calls (hi : Inv s) (cs : List Call) (hk : Respects CallKind Audrv.call s cs) :
    Inv (cs.foldl Audrv.call s) :=
  hk.invariant (fun _ c hi hk => hi.call c hk) hi

theorem sameRegions_track (s : State) (owner : Option ℕ) (r : AuResource) (alloc : Bool) :
    SameRegions s (auDriverTrack s owner r alloc) := by
  unfold auDriverTrack
  cases owner with
  | none => exact SameRegions.refl s
  | some i =>
    dsimp only
    split_ifs
    · exact sameRegions_setDriver _ rfl rfl rfl rfl
    · exact SameRegions.refl s

theorem sameRegions_register (s : State) (fptr : ℕ) (spi : ℤ) :
    SameRegions s (GICRegisterSPIHandler s fptr spi) := by
  unfold GICRegisterSPIHandler
  split_ifs
  · exact SameRegions.refl s
  · exact ⟨rfl, rfl, rfl, fun _ => rfl, fun _ => rfl, fun _ => rfl, fun _ => rfl⟩

theorem sameRegions_mapMmio (s : State) (owner : Option ℕ) (count : ℕ) (fails : List ℕ) :
    SameRegions s (auMapMmio s owner count fails) := by
  have h : Maps owner (fun _ => True) s _ := maps_fold (List.range count)
    (fun k => s.mmioBase + k * 4096) (fun k => decide (s.mmioBase / 4096 + k ∉ fails))
    (fun _ _ => trivial) s
  have hs := h.sameRegions
  exact ⟨hs.count, hs.bump, hs.free, hs.present, hs.unload, hs.base, hs.pages⟩

/-- No call moves a region. -/
theorem sameRegions_call (s : State) (c : Call) : SameRegions s (call s c) := by
  cases c with
  | registerSPI fptr spi alloc =>
    unfold call trackedGICRegisterSPIHandler
    dsimp only
    split_ifs
    · exact (sameRegions_register s fptr spi).trans (sameRegions_track _ _ _ _)
    · exact sameRegions_register s fptr spi
  | clearSPI spi => exact (less_clear s spi).same
  | allocPage caller phys alloc => exact sameRegions_track s _ _ _
  | allocPages caller phys pages alloc => exact sameRegions_track s _ _ _
  | releasePage phys => exact ((less_dropAlias s phys).trans (less_untrackAny _ _ _)).same
  | releasePages phys => exact (less_untrackAny s _ _).same
  | mapMmio caller phys count fails alloc =>
    exact (sameRegions_mapMmio s _ count fails).trans (sameRegions_track _ _ _ _)
  | mapPage virt =>
    exact (maps_page (P := fun _ => True) s none virt true trivial).sameRegions
  | freePages virt size => exact (less_freePages s virt size).same
  | ref i =>
    unfold call
    dsimp only
    split_ifs
    · exact sameRegions_setDriver _ rfl rfl rfl rfl
    · exact SameRegions.refl s
  | unref i =>
    unfold call
    dsimp only
    split_ifs
    · exact sameRegions_setDriver _ rfl rfl rfl rfl
    · exact SameRegions.refl s

theorem sameRegions_calls (cs : List Call) : ∀ s, SameRegions s (cs.foldl call s) := by
  induction cs with
  | nil => exact SameRegions.refl
  | cons c cs ih => exact fun s => (sameRegions_call s c).trans (ih _)

end Xeneva.Audrv
