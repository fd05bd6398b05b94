import Xeneva.Drv.AudrvLedger

/-!
# Loads and unloads
-/

namespace Xeneva.Audrv
open Base

variable {s s' : State} {i j v base : ℕ} {r : AuResource} {fails : List ℕ} {img : Image}

/-! ## The ledger is released -/

/-- The handlers and the pages of the entries in `rs` go, and no others. -/
structure Released (rs : List AuResource) (s s' : State) : Prop where
  less : Less s s'
  drivers : s'.drivers = s.drivers
  irq : ∀ r ∈ rs, r.kind = .irqSpi → (r.value : ℤ) < MAX_SPIS → s'.callbacks r.value = none
  mmio : ∀ r ∈ rs, r.kind = .mmio → ∀ k < r.extra2, s'.page (r.value / 4096 + k) = none
  callbacks : ∀ spi f, s.callbacks spi = some f → s'.callbacks spi = some f ∨
    ∃ r ∈ rs, r.kind = .irqSpi ∧ (r.value : ℤ) = spi
  pages : ∀ v o, s.page v = some o → s'.page v = some o ∨
    ∃ r ∈ rs, r.kind = .mmio ∧ ∃ k < r.extra2, v = r.value / 4096 + k

theorem numPages_mul (n : ℕ) : numPages (n * 4096) = n := by
  unfold numPages
  rw [Nat.mul_div_cancel _ (by omega), Nat.mul_mod_left]
  rfl

theorem releaseResource_spec (s : State) (r : AuResource) :
    Released [r] s (releaseResource s r) := by
  unfold releaseResource
  cases hk : r.kind with
  | irqSpi =>
    refine ⟨less_clear s _, ?_, fun x hx _ hlt => ?_, fun x hx hm => ?_, fun spi f hf => ?_,
      fun v o hv => .inl ?_⟩
    · dsimp only
      unfold GICClearSPIHandler
      split_ifs <;> rfl
    · rw [List.mem_singleton.mp hx] at hlt ⊢
      unfold GICClearSPIHandler
      dsimp only
      split_ifs with h
      · omega
      · exact Function.update_self ..
    · rw [List.mem_singleton.mp hx, hk] at hm
      cases hm
    · by_cases he : (r.value : ℤ) = spi
      · exact .inr ⟨r, List.mem_singleton.mpr rfl, hk, he⟩
      · left
        dsimp only
        unfold GICClearSPIHandler
        split_ifs
        · exact hf
        · dsimp only
          rwa [Function.update_of_ne (Ne.symm he)]
    · dsimp only
      unfold GICClearSPIHandler
      split_ifs <;> exact hv
  | mmio =>
    refine ⟨less_freePages s _ _, rfl, fun x hx hm => ?_, fun x hx _ k hlt => ?_,
      fun spi f hf => .inl hf, fun v o hv => ?_⟩
    · rw [List.mem_singleton.mp hx, hk] at hm
      cases hm
    · rw [List.mem_singleton.mp hx] at hlt ⊢
      unfold auFreePages
      dsimp only
      rw [numPages_mul]
      exact if_pos ⟨Nat.le_add_right .., Nat.add_lt_add_left hlt _⟩
    · unfold auFreePages
      dsimp only
      rw [numPages_mul]
      split_ifs with hin
      · exact .inr ⟨r, List.mem_singleton.mpr rfl, hk, v - r.value / 4096, by omega, by omega⟩
      · exact .inl hv
  | physPage =>
    refine ⟨Less.refl s, rfl, fun x hx hm => ?_, fun x hx hm => ?_, fun _ _ h => .inl h,
      fun _ _ h => .inl h⟩ <;> rw [List.mem_singleton.mp hx, hk] at hm <;> cases hm
  | physRun =>
    refine ⟨Less.refl s, rfl, fun x hx hm => ?_, fun x hx hm => ?_, fun _ _ h => .inl h,
      fun _ _ h => .inl h⟩ <;> rw [List.mem_singleton.mp hx, hk] at hm <;> cases hm

theorem Less.callbacks_none (h : Less s s') {spi : ℤ} (hn : s.callbacks spi = none) :
    s'.callbacks spi = none := by
  apply Option.eq_none_iff_forall_ne_some.mpr
  intro f hf
  rw [h.callbacks spi f hf] at hn
  cases hn

theorem Less.page_none (h : Less s s') (hn : s.page v = none) : s'.page v = none := by
  apply Option.eq_none_iff_forall_ne_some.mpr
  intro o ho
  rw [h.page v o ho] at hn
  cases hn

theorem release_spec (rs : List AuResource) :
    ∀ s, Released rs s (rs.foldl releaseResource s) := by
  induction rs with
  | nil =>
    intro s
    exact ⟨Less.refl s, rfl, fun x hx => absurd hx List.not_mem_nil,
      fun x hx => absurd hx List.not_mem_nil, fun _ _ h => .inl h, fun _ _ h => .inl h⟩
  | cons r rs ih =>
    intro s
    have h1 := releaseResource_spec s r
    have h2 := ih (releaseResource s r)
    rw [List.foldl_cons]
    refine ⟨h1.less.trans h2.less, h2.drivers.trans h1.drivers, fun x hx hk hlt => ?_,
      fun x hx hk k hlt => ?_, fun spi f hf => ?_, fun v o hv => ?_⟩
    · rcases List.mem_cons.mp hx with rfl | hx
      · exact h2.less.callbacks_none (h1.irq x (List.mem_singleton.mpr rfl) hk hlt)
      · exact h2.irq x hx hk hlt
    · rcases List.mem_cons.mp hx with rfl | hx
      · exact h2.less.page_none (h1.mmio x (List.mem_singleton.mpr rfl) hk k hlt)
      · exact h2.mmio x hx hk k hlt
    · rcases h1.callbacks spi f hf with h | ⟨x, hx, h⟩
      · rcases h2.callbacks spi f h with h | ⟨x, hx, h⟩
        · exact .inl h
        · exact .inr ⟨x, List.mem_cons_of_mem r hx, h⟩
      · exact .inr ⟨x, List.mem_cons.mpr (.inl (List.mem_singleton.mp hx)), h⟩
    · rcases h1.pages v o hv with h | ⟨x, hx, h⟩
      · rcases h2.pages v o h with h | ⟨x, hx, h⟩
        · exact .inl h
        · exact .inr ⟨x, List.mem_cons_of_mem r hx, h⟩
      · exact .inr ⟨x, List.mem_cons.mpr (.inl (List.mem_singleton.mp hx)), h⟩

/-! ## One driver is replaced -/

/-- In place of driver `i` stands `d`. The others are as they were. -/
structure Replaced (s s' : State) (i : ℕ) (d : AuDriver) : Prop where
  self : s'.drivers i = d
  others : ∀ j, j ≠ i → s'.drivers j = s.drivers j

theorem replaced_setDriver (h : s'.drivers = s.drivers) (d : AuDriver) :
    Replaced s (s'.setDriver i d) i d where
  self := Function.update_self ..
  others := fun j hj => (Function.update_of_ne hj ..).trans (congrFun h j)

theorem Replaced.each {d : AuDriver} {Q : AuDriver → Prop} (h : Replaced s s' i d) (hd : Q d)
    (ho : ∀ j, j ≠ i → Q (s.drivers j)) (j : ℕ) : Q (s'.drivers j) := by
  by_cases he : j = i
  · rw [he, h.self]
    exact hd
  · rw [h.others j he]
    exact ho j he

theorem extent_of_zero {d : AuDriver} (h : d.region_pages = 0) (e : Extent) :
    d.extent.Apart e := by
  apply Extent.apart_empty
  unfold AuDriver.extent
  rw [h, Nat.zero_mul]

theorem not_mem_of_zero {d : AuDriver} (h : d.region_pages = 0) (x : ℕ) : x ∉ d.extent.set := by
  unfold AuDriver.extent Extent.set
  rw [h, Set.mem_Ico]
  dsimp only
  omega

theorem mem_extent {d : AuDriver} (hal : d.new_load_base % 4096 = 0) :
    v * 4096 ∈ d.extent.set ↔
      d.new_load_base / 4096 ≤ v ∧ v < d.new_load_base / 4096 + d.region_pages := by
  have hpage := page_mul hal
  unfold AuDriver.extent Extent.set
  rw [Set.mem_Ico]
  dsimp only
  rw [← hpage, ← Nat.add_mul, Nat.mul_div_cancel _ (by omega)]
  exact and_congr ⟨fun h => Nat.le_of_mul_le_mul_right h (by omega),
    fun h => Nat.mul_le_mul_right 4096 h⟩ ⟨fun h => Nat.lt_of_mul_lt_mul_right h,
    fun h => Nat.mul_lt_mul_of_pos_right h (by omega)⟩

/-- What the invariant asks of the region of one driver. -/
structure ImageOk (bump : ℕ) (d : AuDriver) : Prop where
  absent : d.present = false → d.region_pages = 0
  opted : d.unload = true → 0 < d.region_pages
  ge : 0 < d.region_pages → AU_DRIVER_BASE_START ≤ d.new_load_base
  le : 0 < d.region_pages → d.new_load_base + d.region_pages * 4096 ≤ bump
  aligned : 0 < d.region_pages → d.new_load_base % 4096 = 0

theorem RegionInv.table (hi : RegionInv s) (hb : s'.driver_load_base = s.driver_load_base)
    (hf : s'.free_regions = s.free_regions) : TableOk s' := by
  constructor
  · exact hb ▸ hi.bump_ge
  · exact hb ▸ hi.bump_le
  · exact hb ▸ hi.bump_aligned
  · rw [hb, hf]
    exact hi.free
  · exact hf ▸ hi.regions

theorem RegionInv.replace {d : AuDriver} (hi : RegionInv s) (h : Replaced s s' i d)
    (ht : TableOk s') (hd : ImageOk s'.driver_load_base d)
    (hle : ∀ j, j ≠ i → 0 < (s.drivers j).region_pages →
      (s.drivers j).new_load_base + (s.drivers j).region_pages * 4096 ≤ s'.driver_load_base)
    (himages : ∀ j, j ≠ i → d.extent.Apart (s.drivers j).extent)
    (hoff : ∀ r ∈ s'.free_regions, d.extent.Apart r.extent)
    (hoffs : ∀ j, j ≠ i → ∀ r ∈ s'.free_regions, (s.drivers j).extent.Apart r.extent) :
    RegionInv s' := by
  have hok : ∀ j, ImageOk s'.driver_load_base (s'.drivers j) :=
    h.each hd fun j hj => ⟨hi.absent j, hi.opted j, hi.ge j, hle j hj, hi.aligned j⟩
  refine ⟨ht.bump_ge, ht.bump_le, ht.bump_aligned, fun j => (hok j).absent,
    fun j => (hok j).opted, fun j => (hok j).ge, fun j => (hok j).le, fun j => (hok j).aligned,
    ht.free, fun j k hjk => ?_,
    h.each (Q := fun x => ∀ r ∈ s'.free_regions, x.extent.Apart r.extent) hoff hoffs,
    ht.regions⟩
  by_cases hj : j = i
  · have hk : k ≠ i := fun e => hjk (hj.trans e.symm)
    rw [hj, h.self, h.others k hk]
    exact himages k hk
  · rw [h.others j hj]
    by_cases hk : k = i
    · rw [hk, h.self]
      exact (himages j hj).symm
    · rw [h.others k hk]
      exact hi.images j k hjk

/-- The new driver has no entries yet. What is mapped was mapped outside of the old image, or is
mapped in the new one. -/
theorem LedgerInv.replace {d : AuDriver} (hi : LedgerInv s) (h : Replaced s s' i d)
    (hd : d.resources = []) (hcount : s'.count = s.count) (hmb : s'.mmioBase = s.mmioBase)
    (hlow : ∀ v, v * 4096 ∈ d.extent.set → v * 4096 < KERNEL_BASE_ADDRESS)
    (hpage : ∀ v o, s'.page v = some o →
      (s.page v = some o ∧ v * 4096 ∉ (s.drivers i).extent.set) ∨
        (o = some i ∧ v * 4096 ∈ d.extent.set))
    (hcb : ∀ spi f, s'.callbacks spi = some f → s.callbacks spi = some f) : LedgerInv s' := by
  have hres : ∀ j, ∀ r ∈ (s'.drivers j).resources, j ≠ i ∧ r ∈ (s.drivers j).resources := by
    intro j r hr
    by_cases he : j = i
    · rw [he, h.self, hd] at hr
      exact absurd hr List.not_mem_nil
    · rw [h.others j he] at hr
      exact ⟨he, hr⟩
  constructor
  · exact h.each (Q := fun x => x.present = false → x.resources = []) (fun _ => hd)
      fun j _ => hi.absent j
  · intro j hj
    rw [hcount] at hj
    by_cases he : j = i
    · rw [he, h.self, hd]
    · rw [h.others j he]
      exact hi.beyond j hj
  · intro v o hge hlt hv
    rcases hpage v o hv with ⟨hold, hout⟩ | ⟨ho, hin⟩
    · obtain ⟨j, hj, ho⟩ := hi.images v o hge hlt hold
      have hne : j ≠ i := fun he => hout (he ▸ hj)
      exact ⟨j, by rwa [h.others j hne], ho⟩
    · exact ⟨i, by rwa [h.self], ho⟩
  · intro v hv
    rw [hmb] at hv
    apply Option.eq_none_iff_forall_ne_some.mpr
    intro o ho
    rcases hpage v o ho with ⟨hold, -⟩ | ⟨-, hin⟩
    · rw [hi.above v hv] at hold
      cases hold
    · have h1 := hlow v hin
      have h2 := hi.mmio_ge
      have h3 := kernel_le_mmio
      omega
  · rw [hmb]
    exact hi.mmio_ge
  · rw [hmb]
    exact hi.mmio_aligned
  · intro j r hr hk
    have ho := hi.mmio j r (hres j r hr).2 hk
    refine ⟨ho.ge, by rw [hmb]; exact ho.le, ho.aligned, fun k hk o hv => ?_⟩
    rcases hpage _ o hv with ⟨hold, -⟩ | ⟨-, hin⟩
    · exact ho.own k hk o hold
    · -- the entry is in the MMIO window
      have h1 := hlow _ hin
      have h2 := ho.ge
      have h3 := kernel_le_mmio
      have h4 := page_mul ho.aligned
      omega
  · intro j r hr hk
    have ho := hi.irq j r (hres j r hr).2 hk
    refine ⟨ho.lt, fun f hf => ?_⟩
    rw [h.others j (hres j r hr).1]
    exact ho.own f (hcb _ f hf)

/-! ## Unloading -/

/-- A driver that is loaded no more. -/
def AuDriver.gone (d : AuDriver) : AuDriver :=
  { d with
    resources := [], present := false, entry := false, unload := false, unloadable := false
    new_load_base := 0, region_pages := 0 }

/-- The state when the ledger of driver `i` is released, and its image is still there. -/
def releaseLedger (s : State) (i : ℕ) : State :=
  (s.drivers i).resources.foldl releaseResource
    (s.setDriver i { s.drivers i with resources := [] })

theorem released_releaseLedger (s : State) (i : ℕ) :
    Released (s.drivers i).resources (s.setDriver i { s.drivers i with resources := [] })
      (releaseLedger s i) := release_spec _ _

theorem less_releaseLedger (s : State) (i : ℕ) : Less s (releaseLedger s i) :=
  (less_setDriver { s.drivers i with resources := [] } rfl rfl rfl rfl
    fun _ h => absurd h List.not_mem_nil).trans (released_releaseLedger s i).less

theorem releaseLedger_driver (s : State) (i : ℕ) :
    (releaseLedger s i).drivers i = { s.drivers i with resources := [] } := by
  rw [(released_releaseLedger s i).drivers]
  exact Function.update_self ..

/-- The image of driver `i` goes. -/
structure Unloaded (s s' : State) (i : ℕ) : Prop where
  replaced : Replaced s s' i (s.drivers i).gone
  count : s'.count = s.count
  mmioBase : s'.mmioBase = s.mmioBase
  callbacks : s'.callbacks = s.callbacks
  inside : ∀ v, v * 4096 ∈ (s.drivers i).extent.set → s'.page v = none
  outside : ∀ v, v * 4096 ∉ (s.drivers i).extent.set → s'.page v = s.page v
  table : TableOk s'
  le : ∀ e : Extent, 0 < e.size → e.Apart (s.drivers i).extent →
    e.base + e.size ≤ s.driver_load_base → e.base + e.size ≤ s'.driver_load_base
  off : ∀ e : Extent, e.Apart (s.drivers i).extent → (∀ r ∈ s.free_regions, e.Apart r.extent) →
    ∀ r ∈ s'.free_regions, e.Apart r.extent

/-- The state when the image is gone, too. -/
def removeImage (s : State) (i : ℕ) : State :=
  let d := s.drivers i
  let t := auFreePages
    (s.setDriver i { d with present := false, entry := false, unload := false, unloadable := false })
    d.new_load_base (d.region_pages * 4096)
  let t := auDrvRegionFree t d.new_load_base d.region_pages
  t.setDriver i { t.drivers i with new_load_base := 0, region_pages := 0 }

theorem unloadImage_eq (s : State) (i : ℕ) :
    unloadImage s i = removeImage (releaseLedger s i) i := rfl

theorem Inv.removed (hi : Inv s) (hpos : 0 < (s.drivers i).region_pages)
    (hres : (s.drivers i).resources = []) :
    Unloaded s (removeImage s i) i := by
  unfold removeImage
  dsimp only
  obtain ⟨u, hu⟩ : ∃ u, u = auFreePages (s.setDriver i { s.drivers i with
    present := false, entry := false, unload := false, unloadable := false })
    (s.drivers i).new_load_base ((s.drivers i).region_pages * 4096) := ⟨_, rfl⟩
  rw [← hu]
  have hbump : u.driver_load_base = s.driver_load_base := by rw [hu]; rfl
  have hfree : u.free_regions = s.free_regions := by rw [hu]; rfl
  have hdrv : u.drivers = (s.setDriver i { s.drivers i with
      present := false, entry := false, unload := false, unloadable := false }).drivers := by
    rw [hu]
    rfl
  have hf : Freed u (auDrvRegionFree u (s.drivers i).new_load_base (s.drivers i).region_pages)
      (s.drivers i).extent := by
    refine (hi.regions.table hbump hfree).release hpos (hi.regions.ge i hpos) ?_
      (hi.regions.aligned i hpos) fun r hr => ?_
    · rw [hbump]
      exact hi.regions.le i hpos
    · rw [hfree] at hr
      exact hi.regions.off i r hr
  have hpage : ∀ v, u.page v = if (s.drivers i).new_load_base / 4096 ≤ v ∧
      v < (s.drivers i).new_load_base / 4096 + (s.drivers i).region_pages then none
      else s.page v := by
    intro v
    rw [hu]
    unfold auFreePages
    dsimp only
    rw [numPages_mul]
    rfl
  have hin := fun v => mem_extent (v := v) (hi.regions.aligned i hpos)
  constructor
  · constructor
    · show Function.update _ i _ i = _
      rw [Function.update_self, hf.drivers, hdrv]
      show ({ Function.update s.drivers i _ i with new_load_base := 0, region_pages := 0 } :
        AuDriver) = _
      rw [Function.update_self]
      unfold AuDriver.gone
      rw [← hres]
    · intro j hj
      show Function.update _ i _ j = _
      rw [Function.update_of_ne hj, hf.drivers, hdrv]
      exact Function.update_of_ne hj ..
  · exact hf.count.trans (by rw [hu]; rfl)
  · exact hf.mmioBase.trans (by rw [hu]; rfl)
  · exact hf.callbacks.trans (by rw [hu]; rfl)
  · intro v hv
    exact (congrFun hf.page v).trans ((hpage v).trans (if_pos ((hin v).mp hv)))
  · intro v hv
    exact (congrFun hf.page v).trans ((hpage v).trans (if_neg fun h => hv ((hin v).mpr h)))
  · exact ⟨hf.bump_ge, hf.bump_le.trans (hbump ▸ hi.regions.bump_le), hf.bump_aligned, hf.free,
      hf.regions⟩
  · intro e he ha hle
    exact hf.le e he ha (hbump ▸ hle)
  · intro e ha hr
    exact hf.off e ha (hfree ▸ hr)

theorem Unloaded.inv (h : Unloaded s s' i) (hi : Inv s) : Inv s' := by
  have hmem := fun x => not_mem_of_zero (d := (s.drivers i).gone) rfl x
  constructor
  · refine hi.regions.replace h.replaced h.table ?_ (fun j hj hp => ?_)
      (fun j _ => extent_of_zero rfl _) (fun r _ => extent_of_zero rfl _) fun j hj => ?_
    · exact ⟨fun _ => rfl, fun hu => (by cases hu), fun hp => absurd hp (Nat.lt_irrefl 0),
        fun hp => absurd hp (Nat.lt_irrefl 0), fun hp => absurd hp (Nat.lt_irrefl 0)⟩
    · exact h.le (s.drivers j).extent (Nat.mul_pos hp (by omega)) (hi.regions.images j i hj)
        (hi.regions.le j hp)
    · exact h.off _ (hi.regions.images j i hj) (hi.regions.off j)
  · refine hi.ledger.replace h.replaced rfl h.count h.mmioBase (fun v hv => absurd hv (hmem _))
      (fun v o hv => ?_) fun spi f hf => h.callbacks ▸ hf
    by_cases hmem : v * 4096 ∈ (s.drivers i).extent.set
    · rw [h.inside v hmem] at hv
      cases hv
    · exact .inl ⟨h.outside v hmem ▸ hv, hmem⟩

/-- What went was the driver's. -/
theorem Inv.onlyOwn (hi : Inv s) (hpos : 0 < (s.drivers i).region_pages)
    (h : Unloaded (releaseLedger s i) s' i) : OnlyOwn s s' i := by
  have hrel := released_releaseLedger s i
  have hext : ((releaseLedger s i).drivers i).extent = (s.drivers i).extent := by
    rw [releaseLedger_driver]
    rfl
  have hinside := hext ▸ h.inside
  have houtside := hext ▸ h.outside
  constructor
  · intro r hr hk
    rw [h.callbacks]
    exact hrel.irq r hr hk (hi.ledger.irq i r hr hk).lt
  · intro r hr hk k hlt
    by_cases hmem : (r.value / 4096 + k) * 4096 ∈ (s.drivers i).extent.set
    · exact hinside _ hmem
    · rw [houtside _ hmem]
      exact hrel.mmio r hr hk k hlt
  · exact hinside
  · rw [h.replaced.self]
    rfl
  · intro spi f hf
    rw [h.callbacks]
    rcases hrel.callbacks spi f hf with h' | ⟨r, hr, hk, he⟩
    · exact .inl h'
    · right
      apply (hi.ledger.irq i r hr hk).own f
      rw [he]
      exact hf
  · intro v o hv
    rcases hrel.pages v o hv with h' | ⟨r, hr, hk, k, hlt, he⟩
    · by_cases hmem : v * 4096 ∈ (s.drivers i).extent.set
      · right
        have hv' := Set.mem_Ico.mp hmem
        have hge := hi.regions.ge i hpos
        have hle := (hi.regions.le i hpos).trans hi.regions.bump_le
        obtain ⟨j, hj, ho⟩ := hi.ledger.images v o (hge.trans hv'.1) (hv'.2.trans_le hle) hv
        by_cases hji : j = i
        · rw [ho, hji]
        · exact absurd hmem ((hi.regions.images j i hji).not_mem hj)
      · left
        rw [houtside v hmem]
        exact h'
    · right
      apply (hi.ledger.mmio i r hr hk).own k hlt o
      rw [← he]
      exact hv

/-- What an unload leaves, and what goes. -/
theorem Inv.unloadImage (hi : Inv s) (hpos : 0 < (s.drivers i).region_pages) :
    Inv (unloadImage s i) ∧ OnlyOwn s (unloadImage s i) i ∧
      ((Audrv.unloadImage s i).drivers i).present = false := by
  have hi₂ := hi.less (less_releaseLedger s i)
  have h : Unloaded (releaseLedger s i) (Audrv.unloadImage s i) i := by
    rw [unloadImage_eq]
    apply hi₂.removed <;> rw [releaseLedger_driver]
    exact hpos
  exact ⟨h.inv hi₂, hi.onlyOwn hpos h, by rw [h.replaced.self]; rfl⟩

/-! ## Loading -/

theorem numPages_le (n m : ℕ) (h : n ≤ m * 4096) : numPages n ≤ m := by
  unfold numPages
  split_ifs <;> omega

/-- The pages of a section are in the region of its image. -/
theorem maps_section (sec : Section) (s : State) (hal : base % 4096 = 0)
    (hfit : sec.VirtualAddress.toNat + sec.size ≤ img.SizeOfImage.toNat) :
    Maps (some i) (fun v => base / 4096 ≤ v ∧ v < base / 4096 + img.pages) s
      (mapSection i base fails s sec) := by
  unfold mapSection
  dsimp only
  have hpage := page_mul hal
  have hbytes : img.SizeOfImage.toNat ≤ img.pages * 4096 := by
    unfold Image.pages
    omega
  generalize sec.VirtualAddress.toNat = va at hfit
  have hfirst : (base + va) / 4096 * 4096 / 4096 = base / 4096 + va / 4096 := by
    rw [Nat.mul_div_cancel _ (by omega), ← hpage, Nat.mul_comm, Nat.mul_add_div (by omega),
      Nat.mul_div_cancel_left _ (by omega)]
  have hmod : (base + va) % 4096 = va % 4096 := by omega
  have hcount : numPages (sec.size + (base + va) % 4096) ≤ img.pages - va / 4096 := by
    apply numPages_le
    rw [hmod, Nat.sub_mul]
    have := Nat.div_add_mod va 4096
    omega
  refine maps_fold _ (fun j => (base + va) / 4096 * 4096 + j * 0x1000) _ (fun j hj => ?_) s
  have hlt := List.mem_range.mp hj
  show base / 4096 ≤ ((base + va) / 4096 * 4096 + j * 4096) / 4096 ∧
    ((base + va) / 4096 * 4096 + j * 4096) / 4096 < base / 4096 + img.pages
  rw [page_of_add, hfirst]
  omega

theorem maps_sections (secs : List Section) (hal : base % 4096 = 0)
    (hfit : ∀ sec ∈ secs, sec.VirtualAddress.toNat + sec.size ≤ img.SizeOfImage.toNat) :
    ∀ s, Maps (some i) (fun v => base / 4096 ≤ v ∧ v < base / 4096 + img.pages) s
      (secs.foldl (mapSection i base fails) s) := by
  induction secs with
  | nil => exact fun s => Maps.refl _ _ s
  | cons sec secs ih =>
    intro s
    exact (maps_section sec s hal (hfit sec List.mem_cons_self)).trans
      (ih (fun x hx => hfit x (List.mem_cons_of_mem sec hx)) _)

/-- An image in a new region. -/
theorem Inv.loadImage (hi : Inv s) (habs : (s.drivers i).present = false)
    (hk : FileKind s (.image img)) : Inv (auDriverLoad s i (.image img) fails) := by
  obtain ⟨hpos, hfit, hroom⟩ := hk
  have hpages : 0 < img.pages := by
    have hbytes : 0 < img.SizeOfImage.toNat := UInt32.lt_iff_toNat_lt.mp hpos
    unfold Image.pages
    omega
  have hle : img.pages ≤ 2 ^ 20 := by
    have := img.SizeOfImage.toNat_lt
    unfold Image.pages
    omega
  have ha := hi.regions.alloc hpages hle hroom
  obtain ⟨base, hbase⟩ : ∃ base, base = (auDrvRegionAlloc s img.pages).1 := ⟨_, rfl⟩
  obtain ⟨s₁, hs₁⟩ : ∃ s₁, s₁ = (auDrvRegionAlloc s img.pages).2 := ⟨_, rfl⟩
  rw [← hbase, ← hs₁] at ha
  have hmaps : Maps (some i) (fun v => base / 4096 ≤ v ∧ v < base / 4096 + img.pages) s₁
      (img.sections.foldl (mapSection i base fails)
        (auMapPage s₁ (some i) base (decide (base / 4096 ∉ fails)))) :=
    (maps_page s₁ (some i) base _ ⟨Nat.le_refl _, Nat.lt_add_of_pos_right hpages⟩).trans
      (maps_sections img.sections ha.aligned hfit _)
  obtain ⟨s₂, hs₂⟩ : ∃ s₂, s₂ = img.sections.foldl (mapSection i base fails)
    (auMapPage s₁ (some i) base (decide (base / 4096 ∉ fails))) := ⟨_, rfl⟩
  rw [← hs₂] at hmaps
  obtain ⟨d, hd⟩ : ∃ d : AuDriver, d = { s.drivers i with
    entry := img.main, unload := img.unload, unloadable := img.unloadable, refcount := 0
    resources := [], new_load_base := base, region_pages := img.pages, present := true } :=
    ⟨_, rfl⟩
  have hload : auDriverLoad s i (.image img) fails = s₂.setDriver i d := by
    rw [hd, hs₂, hs₁, hbase]
    rfl
  rw [hload]
  have hdrv : s₂.drivers = s.drivers := hmaps.drivers.trans ha.drivers
  have hext : d.extent = ⟨base, img.pages * 4096⟩ := by rw [hd]; rfl
  have hmem : ∀ v, v * 4096 ∈ d.extent.set ↔ base / 4096 ≤ v ∧ v < base / 4096 + img.pages := by
    intro v
    have := mem_extent (d := d) (v := v) (by rw [hd]; exact ha.aligned)
    rw [this, hd]
  have hold : ∀ j, s₁.drivers j = s.drivers j := congrFun ha.drivers
  have hrep := replaced_setDriver (i := i) hdrv d
  constructor
  · refine hi.regions.replace hrep (ha.inv.table hmaps.bump hmaps.free) ?_ (fun j _ hp => ?_)
      (fun j _ => ?_) (fun r hr => ?_) fun j _ r hr => ?_
    · rw [hd]
      refine ⟨fun h => (by cases h), fun _ => hpages, fun _ => ha.ge, fun _ => ?_,
        fun _ => ha.aligned⟩
      exact ha.le.trans_eq hmaps.bump.symm
    · rw [← hold j] at hp ⊢
      exact (ha.inv.le j hp).trans_eq hmaps.bump.symm
    · rw [hext]
      exact ha.images j
    · rw [hext]
      exact ha.free r (hmaps.free ▸ hr)
    · rw [← hold j]
      exact ha.inv.off j r (hmaps.free ▸ hr)
  · refine hi.ledger.replace hrep (by rw [hd]) (hmaps.count.trans ha.count)
      (hmaps.mmioBase.trans ha.mmioBase) (fun v hv => ?_) (fun v o hv => ?_) fun spi f hf => ?_
    · rw [hext] at hv
      exact hv.2.trans_le (ha.le.trans ha.inv.bump_le)
    · rcases hmaps.new v o hv with h | h
      · exact .inl ⟨ha.page ▸ h, not_mem_of_zero (hi.regions.absent i habs) _⟩
      · exact .inr ⟨h.1, (hmem v).mpr h.2⟩
    · exact (hmaps.callbacks.trans ha.callbacks) ▸ hf

/-- A static component has no region. -/
theorem Inv.loadStatic (hi : Inv s) (habs : (s.drivers i).present = false) :
    Inv (auDriverLoad s i .static fails) := by
  obtain ⟨d, hd⟩ : ∃ d : AuDriver, d = { s.drivers i with
    entry := true, unload := false, unloadable := false, refcount := 0, resources := []
    region_pages := 0, present := true } := ⟨_, rfl⟩
  have hload : auDriverLoad s i .static fails = s.setDriver i d := by
    rw [hd]
    rfl
  rw [hload]
  have hz : d.region_pages = 0 := by rw [hd]
  have hno : ¬0 < d.region_pages := by rw [hz]; exact Nat.lt_irrefl 0
  have hrep := replaced_setDriver (i := i) (rfl : s.drivers = s.drivers) d
  constructor
  · refine hi.regions.replace hrep (hi.regions.table rfl rfl) ?_ (fun j _ => hi.regions.le j)
      (fun j _ => extent_of_zero hz _) (fun r _ => extent_of_zero hz _) fun j _ => hi.regions.off j
    exact ⟨fun _ => hz, fun hu => (by rw [hd] at hu; cases hu), fun hp => absurd hp hno,
      fun hp => absurd hp hno, fun hp => absurd hp hno⟩
  · exact hi.ledger.replace hrep (by rw [hd]) rfl rfl
      (fun v hv => absurd hv (not_mem_of_zero hz _))
      (fun v o hv => .inl ⟨hv, not_mem_of_zero (hi.regions.absent i habs) _⟩) fun _ _ h => h

theorem Inv.load (hi : Inv s) (habs : (s.drivers i).present = false)
    (file : File) (fails : List ℕ) (hk : FileKind s file) :
    Inv (auDriverLoad s i file fails) := by
  cases file with
  | image img => exact hi.loadImage habs hk
  | missing => exact hi
  | claimed =>
    have hu : (s.drivers i).unload = false := by
      rw [Bool.eq_false_iff]
      intro h
      have hp := hi.regions.opted i h
      rw [hi.regions.absent i habs] at hp
      exact Nat.lt_irrefl 0 hp
    exact hi.less (less_setDriver _ habs.symm hu.symm rfl rfl fun _ h => h)
  | static => exact hi.loadStatic habs

/-! ## Runs -/

/-- The driver is asked; if it agrees, its image goes. -/
theorem Inv.unload (hi : Inv s) (cs : List Call) (rc : ℤ)
    (hk : Respects CallKind Audrv.call s cs) :
    Inv (auDriverUnload s i cs rc) ∧ ((s.drivers i).MayUnload → rc = 0 →
      ((auDriverUnload s i cs rc).drivers i).present = false ∧
      OnlyOwn (cs.foldl Audrv.call s) (auDriverUnload s i cs rc) i) := by
  have hi' := hi.calls cs hk
  unfold auDriverUnload
  by_cases hm : (s.drivers i).MayUnload
  · have hpos : 0 < ((cs.foldl Audrv.call s).drivers i).region_pages := by
      rw [(sameRegions_calls cs s).pages]
      exact hi.regions.opted i hm.2.2.1
    obtain ⟨h1, h2, h3⟩ := hi'.unloadImage hpos
    rw [if_pos hm]
    dsimp only
    split_ifs with hrc
    · exact ⟨hi', fun _ h => absurd h hrc⟩
    · exact ⟨h1, fun _ _ => ⟨h3, h2⟩⟩
  · rw [if_neg hm]
    exact ⟨hi, fun h => absurd h hm⟩

theorem Inv.loadByName (hi : Inv s) {file : File} {calls unloadCalls : List Call}
    {rc unloadRc : ℤ} (hk : Kind s (.load i file fails calls rc unloadCalls unloadRc)) :
    Inv (auDriverLoadByName s i file fails calls rc unloadCalls unloadRc) := by
  unfold auDriverLoadByName
  cases hp : (s.drivers i).present with
  | true => exact hi
  | false =>
    obtain ⟨hfile, hcalls, hfail⟩ := hk hp
    have h1 := hi.load hp file fails hfile
    dsimp only
    rw [if_neg Bool.false_ne_true]
    split_ifs with hrun hrc
    · exact ((h1.calls calls hcalls).unload unloadCalls unloadRc (hfail hrun.2 hrc).2.2).1
    · exact h1.calls calls hcalls
    · exact h1

theorem Inv.step (hi : Inv s) (a : Act) (hk : Kind s a) : Inv (step s a) := by
  cases a with
  | call c => exact hi.call c hk
  | load i file fails calls rc unloadCalls unloadRc =>
    show Inv (if i < s.count then _ else s)
    split_ifs
    · exact hi.loadByName hk
    · exact hi
  | boot i file fails calls rc =>
    show Inv (if i < s.count ∧ (s.drivers i).present = false then _ else s)
    split_ifs with hlt
    · obtain ⟨hfile, hcalls, -⟩ := hk hlt.2
      have h1 := hi.load hlt.2 file fails hfile
      unfold bootLoad
      dsimp only
      split_ifs
      · exact h1.calls calls hcalls
      · exact h1
    · exact hi
  | unload i calls rc =>
    show Inv (if i < s.count then _ else s)
    split_ifs
    · exact (hi.unload calls rc hk).1
    · exact hi

/-- An act does what is asked of it in every state of the invariant. -/
theorem Inv.stepOk (hi : Inv s) (a : Act) (hk : Kind s a) : StepOk s a := by
  cases a with
  | call c => trivial
  | unload i calls rc =>
    intro hlt hm hrc
    show OnlyOwn _ (if i < s.count then _ else s) i
    rw [if_pos hlt]
    exact ((hi.unload calls rc hk).2 hm hrc).2
  | load i file fails calls rc unloadCalls unloadRc =>
    intro hlt hp
    dsimp only
    intro hpres hentry hrc
    obtain ⟨hfile, hcalls, hfail⟩ := hk hp
    obtain ⟨hm, hurc, hucalls⟩ := hfail hentry hrc
    have h1 := hi.load hp file fails hfile
    have hstep : Audrv.step s (.load i file fails calls rc unloadCalls unloadRc) =
        auDriverUnload (calls.foldl Audrv.call (auDriverLoad s i file fails)) i unloadCalls
          unloadRc := by
      show (if i < s.count then auDriverLoadByName s i file fails calls rc unloadCalls unloadRc
        else s) = _
      rw [if_pos hlt]
      unfold auDriverLoadByName
      rw [if_neg (by rw [hp]; exact Bool.false_ne_true)]
      dsimp only
      rw [if_pos ⟨hpres, hentry⟩, if_pos hrc]
    rw [hstep]
    exact ((h1.calls calls hcalls).unload unloadCalls unloadRc hucalls).2 hm hurc
  | boot i file fails calls rc =>
    intro hlt hp hentry hrc
    exact absurd ((hk hp).2.2 hentry) hrc

theorem base_aligned : AU_DRIVER_BASE_START % 4096 = 0 := by decide

theorem mmio_base_aligned : MMIO_BASE % 4096 = 0 := by decide

theorem inv_init (n : ℕ) : Inv { count := n } where
  regions := ⟨Nat.le_refl _, driver_lt_kernel.le, base_aligned, fun _ _ => rfl,
    fun _ h => (by cases h), fun _ h => absurd h (Nat.lt_irrefl 0),
    fun _ h => absurd h (Nat.lt_irrefl 0), fun _ h => absurd h (Nat.lt_irrefl 0),
    fun _ h => absurd h List.not_mem_nil, fun _ _ _ => extent_of_zero rfl _,
    fun _ _ h => absurd h List.not_mem_nil, List.Pairwise.nil⟩
  ledger := ⟨fun _ _ => rfl, fun _ _ => rfl, fun _ _ _ _ h => (by cases h), fun _ _ => rfl,
    Nat.le_refl _, mmio_base_aligned, fun _ _ h => absurd h List.not_mem_nil,
    fun _ _ h => absurd h List.not_mem_nil⟩

/-- In every run of kind steps the regions are disjoint, and each act does what is asked of it. -/
theorem exec_components (n : ℕ) (as : List Act) (a : Act)
    (hk : Respects Kind Audrv.step { count := n } as)
    (ha : Kind (run Audrv.step { count := n } as) a) :
    Ranges (run Audrv.step { count := n } as) ∧ StepOk (run Audrv.step { count := n } as) a := by
  have hi := hk.invariant (fun _ a hi hk => hi.step a hk) (inv_init n)
  exact ⟨hi.regions.ranges, hi.stepOk a ha⟩

def small : Image :=
  { SizeOfImage := 8192, sections := [⟨4096, 4096, 512⟩], unload := true, unloadable := true }

/-- Two drivers are loaded, the first takes a line and a page of device memory, the second
one's entry point fails; then the first is unloaded. -/
def handOver : List Act :=
  [.load 0 (.image small) [] [.registerSPI (AU_DRIVER_BASE_START + 16) 40 true,
      .mapMmio (AU_DRIVER_BASE_START + 32) 0x10000000 1 [] true] 0 [] 0,
    .load 1 (.image small) [] [] 1 [] 0]

theorem exec_components_handOver :
    Ranges (run Audrv.step { count := 2 } handOver) ∧
      StepOk (run Audrv.step { count := 2 } handOver) (.unload 0 [.clearSPI 40] 0) :=
  exec_components 2 handOver (.unload 0 [.clearSPI 40] 0) (by decide +kernel) (by decide +kernel)

/-- A driver that did not opt in to unloading. -/
def stubborn : Image := { SizeOfImage := 4096, sections := [] }

theorem not_exec_components : ¬ ∀ n as a, Ranges (run Audrv.step { count := n } as) ∧
    StepOk (run Audrv.step { count := n } as) a := by
  intro h
  have hload := (h 1 [] (.load 0 (.image stubborn) [] [] (-1) [] 0)).2 (by decide) rfl
  have hgone := (hload (by decide +kernel) (by decide +kernel) (by decide)).1
  exact absurd hgone (by decide +kernel)

end Xeneva.Audrv
