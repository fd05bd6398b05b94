import Xeneva.Base.Run
import Xeneva.Base.Scatter

/-!
# The driver manager

Drivers are loaded into regions above `AU_DRIVER_BASE_START`, and a ledger has what each one
acquired. Physical frames are left out: a page is mapped or not.
-/

namespace Xeneva.Audrv
open Base

def AU_DRIVER_BASE_START : ℕ := 0xFFFFC00000A00000
def KERNEL_BASE_ADDRESS : ℕ := 0xFFFFE00000000000
def MMIO_BASE : ℕ := 0xFFFFFF1000000000
def AU_DRV_MAX_FREE_REGIONS : ℕ := 64
def MAX_SPIS : ℤ := 1024

/-- An entry of `free_regions`. -/
structure Region where
  base : ℕ
  pages : ℕ
deriving DecidableEq

def Region.extent (r : Region) : Extent := ⟨r.base, r.pages * 4096⟩

inductive AuResKind
  | irqSpi | physPage | physRun | mmio
deriving DecidableEq

structure AuResource where
  kind : AuResKind
  value : ℕ
  extra : ℕ := 0
  extra2 : ℕ := 0
deriving DecidableEq

/-- `entry` and `unload` say whether there is one; `unloadable` is the bit of `flags`. -/
structure AuDriver where
  present : Bool := false
  entry : Bool := false
  unload : Bool := false
  unloadable : Bool := false
  refcount : ℤ := 0
  new_load_base : ℕ := 0
  region_pages : ℕ := 0
  resources : List AuResource := []

def AuDriver.extent (d : AuDriver) : Extent := ⟨d.new_load_base, d.region_pages * 4096⟩

/-- The first `count` of the table of drivers are in use. A mapped page has the driver that
mapped it, or `none` for the kernel; `callbacks` are the interrupt handlers. -/
structure State where
  count : ℕ
  drivers : ℕ → AuDriver := fun _ => {}
  free_regions : List Region := []
  driver_load_base : ℕ := AU_DRIVER_BASE_START
  callbacks : ℤ → Option ℕ := fun _ => none
  page : ℕ → Option (Option ℕ) := fun _ => none
  mmioBase : ℕ := MMIO_BASE

def State.setDriver (s : State) (i : ℕ) (d : AuDriver) : State :=
  { s with drivers := Function.update s.drivers i d }

/-- The loop of `AuDrvRegionAlloc`: the base, and the table, whose last entry takes the place
of one that is used up. -/
def regionAllocLoop (pages : ℕ) : List Region → Option (ℕ × List Region)
  | [] => none
  | r :: rs =>
    if r.pages < pages then
      match regionAllocLoop pages rs with
      | none => none
      | some (base, rs) => some (base, r :: rs)
    else if r.pages - pages = 0 then
      some (r.base, match rs.getLast? with
        | none => []
        | some last => last :: rs.dropLast)
    else some (r.base, ⟨(r.base + pages * 4096) % 2 ^ 64, r.pages - pages⟩ :: rs)

def auDrvRegionAlloc (s : State) (pages : ℕ) : ℕ × State :=
  match regionAllocLoop pages s.free_regions with
  | some (base, rs) => (base, { s with free_regions := rs })
  | none => (s.driver_load_base,
    { s with driver_load_base := (s.driver_load_base + pages * 4096) % 2 ^ 64 })

/-- The merge loop of `AuDrvRegionFree`. -/
def regionMergeLoop (base pages : ℕ) : List Region → Option (List Region)
  | [] => none
  | r :: rs =>
    if (r.base + r.pages * 4096) % 2 ^ 64 = base then some (⟨r.base, r.pages + pages⟩ :: rs)
    else if (base + pages * 4096) % 2 ^ 64 = r.base then some (⟨base, r.pages + pages⟩ :: rs)
    else (regionMergeLoop base pages rs).map (r :: ·)

def auDrvRegionFree (s : State) (base pages : ℕ) : State :=
  if (base + pages * 4096) % 2 ^ 64 = s.driver_load_base then { s with driver_load_base := base }
  else
    match regionMergeLoop base pages s.free_regions with
    | some rs => { s with free_regions := rs }
    | none =>
      if s.free_regions.length < AU_DRV_MAX_FREE_REGIONS then
        { s with free_regions := s.free_regions ++ [⟨base, pages⟩] }
      else s

def AuDriver.Contains (d : AuDriver) (addr : ℕ) : Prop :=
  d.present = true ∧ d.new_load_base ≠ 0 ∧ d.new_load_base ≤ addr ∧
    addr < d.new_load_base + d.region_pages * 4096

instance (d : AuDriver) (addr : ℕ) : Decidable (d.Contains addr) := by
  unfold AuDriver.Contains
  infer_instance

def auDriverOwnerOf (s : State) (addr : ℕ) : Option ℕ :=
  (List.range s.count).find? fun i => (s.drivers i).Contains addr

/-- `alloc` says whether the entry could be allocated. -/
def auDriverTrack (s : State) (drv : Option ℕ) (r : AuResource) (alloc : Bool) : State :=
  match drv with
  | none => s
  | some i =>
    if alloc then
      let d := s.drivers i
      s.setDriver i { d with resources := r :: d.resources }
    else s

def auDriverUntrack (s : State) (i : ℕ) (kind : AuResKind) (value : ℕ) : State :=
  let d := s.drivers i
  s.setDriver i
    { d with resources := d.resources.eraseP fun r => r.kind = kind ∧ r.value = value }

def auDriverUntrackAny (s : State) (kind : AuResKind) (value : ℕ) : State :=
  (List.range s.count).foldl (fun s i => auDriverUntrack s i kind value) s

/-- `mem` says whether there was memory for the page tables. -/
def auMapPage (s : State) (owner : Option ℕ) (virt : ℕ) (mem : Bool) : State :=
  if s.page (virt / 4096) = none ∧ mem = true then
    { s with page := Function.update s.page (virt / 4096) (some owner) }
  else s

/-- The pages that `size` bytes take. -/
def numPages (size : ℕ) : ℕ := size / 4096 + if size % 4096 ≠ 0 then 1 else 0

def auFreePages (s : State) (virt size : ℕ) : State :=
  { s with page := fun v =>
      if virt / 4096 ≤ v ∧ v < virt / 4096 + numPages size then none else s.page v }

/-- There is no memory for the tables of the pages in `fails`. -/
def auMapMmio (s : State) (owner : Option ℕ) (page_count : ℕ) (fails : List ℕ) : State :=
  let out := s.mmioBase
  let s := (List.range page_count).foldl
    (fun s i => auMapPage s owner (out + i * 4096) (out / 4096 + i ∉ fails)) s
  { s with mmioBase := (out + page_count * 4096) % 2 ^ 64 }

def GICGetSPIHandler (s : State) (spi : ℤ) : Option ℕ :=
  if spi < 0 ∨ spi ≥ MAX_SPIS then none else s.callbacks spi

def GICRegisterSPIHandler (s : State) (fptr : ℕ) (spi : ℤ) : State :=
  if s.callbacks spi ≠ none then s
  else { s with callbacks := Function.update s.callbacks spi (some fptr) }

def GICClearSPIHandler (s : State) (spi : ℤ) : State :=
  if spi < 0 ∨ spi ≥ MAX_SPIS then s
  else { s with callbacks := Function.update s.callbacks spi none }

def trackedGICRegisterSPIHandler (s : State) (fptr : ℕ) (spi : ℤ) (alloc : Bool) : State :=
  let was_free := GICGetSPIHandler s spi = none
  let s := GICRegisterSPIHandler s fptr spi
  if was_free ∧ GICGetSPIHandler s spi = some fptr then
    auDriverTrack s (auDriverOwnerOf s fptr) ⟨.irqSpi, spi.toNat, 0, 0⟩ alloc
  else s

def trackedAuMapMmio (s : State) (caller phys count : ℕ) (fails : List ℕ) (alloc : Bool) : State :=
  let v := s.mmioBase
  let owner := auDriverOwnerOf s caller
  let s := auMapMmio s owner count fails
  auDriverTrack s owner ⟨.mmio, v, phys, count⟩ alloc

/-- The drivers' single-page device mappings, with the driver. -/
def State.aliases (s : State) (phys : ℕ) : List (ℕ × AuResource) :=
  (List.range s.count).flatMap fun i =>
    ((s.drivers i).resources.filter fun r => r.kind = .mmio ∧ r.extra = phys ∧ r.extra2 = 1).map
      (i, ·)

def auDriverDropMmioAlias (s : State) (phys : ℕ) : State :=
  match s.aliases phys with
  | [] => s
  | (i, r) :: _ => auFreePages (auDriverUntrack s i .mmio r.value) r.value 4096

/-- A call of a driver or of the kernel; one of the kernel comes from outside every driver. -/
inductive Call
  | registerSPI (fptr : ℕ) (spi : ℤ) (alloc : Bool)
  | clearSPI (spi : ℤ)
  | allocPage (caller phys : ℕ) (alloc : Bool)
  | allocPages (caller phys pages : ℕ) (alloc : Bool)
  | releasePage (phys : ℕ)
  | releasePages (phys : ℕ)
  | mapMmio (caller phys count : ℕ) (fails : List ℕ) (alloc : Bool)
  | mapPage (virt : ℕ)
  | freePages (virt size : ℕ)
  | ref (i : ℕ)
  | unref (i : ℕ)

def call (s : State) : Call → State
  | .registerSPI fptr spi alloc => trackedGICRegisterSPIHandler s fptr spi alloc
  | .clearSPI spi => GICClearSPIHandler s spi
  | .allocPage caller phys alloc =>
    auDriverTrack s (auDriverOwnerOf s caller) ⟨.physPage, phys, 0, 0⟩ alloc
  | .allocPages caller phys pages alloc =>
    auDriverTrack s (auDriverOwnerOf s caller) ⟨.physRun, phys, pages, 0⟩ alloc
  | .releasePage phys => auDriverUntrackAny (auDriverDropMmioAlias s phys) .physPage phys
  | .releasePages phys => auDriverUntrackAny s .physRun phys
  | .mapMmio caller phys count fails alloc => trackedAuMapMmio s caller phys count fails alloc
  | .mapPage virt => auMapPage s none virt true
  | .freePages virt size => auFreePages s virt size
  | .ref i =>
    let d := s.drivers i
    if d.present then s.setDriver i { d with refcount := d.refcount + 1 } else s
  | .unref i =>
    let d := s.drivers i
    if d.refcount > 0 then s.setDriver i { d with refcount := d.refcount - 1 } else s

/-- What the loop of `AuDriverUnload` does for an entry: frames are only counted. -/
def releaseResource (s : State) (r : AuResource) : State :=
  match r.kind with
  | .irqSpi => GICClearSPIHandler s r.value
  | .mmio => auFreePages s r.value (r.extra2 * 4096)
  | .physPage | .physRun => s

/-- The end of `AuDriverUnload`, after the driver agreed. -/
def unloadImage (s : State) (i : ℕ) : State :=
  let resources := (s.drivers i).resources
  let s := s.setDriver i { s.drivers i with resources := [] }
  let s := resources.foldl releaseResource s
  let d := s.drivers i
  let base := d.new_load_base
  let pages := d.region_pages
  let s := s.setDriver i { d with present := false, entry := false, unload := false, unloadable := false }
  let s := auFreePages s base (pages * 4096)
  let s := auDrvRegionFree s base pages
  s.setDriver i { s.drivers i with new_load_base := 0, region_pages := 0 }

/-- `AuDriverUnload` asks the driver. -/
def AuDriver.MayUnload (d : AuDriver) : Prop :=
  d.present = true ∧ d.unloadable = true ∧ d.unload = true ∧ d.refcount ≤ 0

instance (d : AuDriver) : Decidable d.MayUnload := by
  unfold AuDriver.MayUnload
  infer_instance

/-- The driver's own unload function makes `calls` and returns `rc`. -/
def auDriverUnload (s : State) (i : ℕ) (calls : List Call) (rc : ℤ) : State :=
  if (s.drivers i).MayUnload then
    let s := calls.foldl call s
    if rc ≠ 0 then s else unloadImage s i
  else s

structure Section where
  VirtualAddress : UInt32
  VirtualSize : UInt32
  SizeOfRawData : UInt32

/-- What `AuDriverLoad` reads of an image; `main`, `unload` and `unloadable` say what it exports. -/
structure Image where
  SizeOfImage : UInt32
  sections : List Section
  main : Bool := true
  unload : Bool := false
  unloadable : Bool := false

def Image.pages (img : Image) : ℕ := (img.SizeOfImage.toNat + 4095) / 4096

/-- What is under a driver's name. -/
inductive File
  /-- The device belongs to a process. -/
  | claimed
  | static
  | missing
  | image (img : Image)

def Section.size (sec : Section) : ℕ :=
  (if sec.SizeOfRawData > sec.VirtualSize then sec.SizeOfRawData else sec.VirtualSize).toNat

def mapSection (i base : ℕ) (fails : List ℕ) (s : State) (sec : Section) : State :=
  let load_addr := base + sec.VirtualAddress.toNat
  let aligned_addr := load_addr / 4096 * 4096
  let req_pages := numPages (sec.size + load_addr % 4096)
  (List.range req_pages).foldl
    (fun s j => auMapPage s (some i) (aligned_addr + j * 0x1000) (aligned_addr / 4096 + j ∉ fails)) s

def auDriverLoad (s : State) (i : ℕ) (file : File) (fails : List ℕ) : State :=
  let d := s.drivers i
  match file with
  | .claimed => s.setDriver i { d with entry := false, unload := false, present := false }
  | .static => s.setDriver i { d with
      entry := true, unload := false, unloadable := false, refcount := 0, resources := []
      region_pages := 0, present := true }
  | .missing => s
  | .image img =>
    let region_pages := img.pages
    let (load_base, s) := auDrvRegionAlloc s region_pages
    let s := auMapPage s (some i) load_base (load_base / 4096 ∉ fails)
    let s := img.sections.foldl (mapSection i load_base fails) s
    s.setDriver i { d with
      entry := img.main, unload := img.unload, unloadable := img.unloadable, refcount := 0
      resources := [], new_load_base := load_base, region_pages, present := true }

/-- The entry point makes `calls` and returns `rc`; if it failed, the driver is unloaded. -/
def auDriverLoadByName (s : State) (i : ℕ) (file : File) (fails : List ℕ) (calls : List Call)
    (rc : ℤ) (unloadCalls : List Call) (unloadRc : ℤ) : State :=
  if (s.drivers i).present then s
  else
    let s := auDriverLoad s i file fails
    if (s.drivers i).present ∧ (s.drivers i).entry then
      let s := calls.foldl call s
      if rc ≠ 0 then auDriverUnload s i unloadCalls unloadRc else s
    else s

/-- The loop of `AuDrvMngrInitialize`. -/
def bootLoad (s : State) (i : ℕ) (file : File) (fails : List ℕ) (calls : List Call) : State :=
  let s := auDriverLoad s i file fails
  if (s.drivers i).entry then calls.foldl call s else s

inductive Act
  | call (c : Call)
  /-- `i` is the driver that `AuDriverLookup` found. -/
  | load (i : ℕ) (file : File) (fails : List ℕ) (calls : List Call) (rc : ℤ)
    (unloadCalls : List Call) (unloadRc : ℤ)
  /-- The load at boot, of a driver that was not loaded yet. -/
  | boot (i : ℕ) (file : File) (fails : List ℕ) (calls : List Call) (rc : ℤ)
  | unload (i : ℕ) (calls : List Call) (rc : ℤ)

def step (s : State) : Act → State
  | .call c => call s c
  | .load i file fails calls rc unloadCalls unloadRc =>
    if i < s.count then auDriverLoadByName s i file fails calls rc unloadCalls unloadRc else s
  | .boot i file fails calls _ =>
    if i < s.count ∧ (s.drivers i).present = false then bootLoad s i file fails calls else s
  | .unload i calls rc => if i < s.count then auDriverUnload s i calls rc else s

/-- The loaded images, the free regions and the area above the bump pointer are disjoint. -/
structure Ranges (s : State) : Prop where
  images : ∀ i j, i ≠ j → (s.drivers i).extent.Apart (s.drivers j).extent
  free : ∀ i, ∀ r ∈ s.free_regions, (s.drivers i).extent.Apart r.extent
  regions : s.free_regions.Pairwise fun r r' => r.extent.Apart r'.extent
  images_le : ∀ i, 0 < (s.drivers i).region_pages →
    (s.drivers i).new_load_base + (s.drivers i).region_pages * 4096 ≤ s.driver_load_base
  free_le : ∀ r ∈ s.free_regions, 0 < r.pages → r.base + r.pages * 4096 ≤ s.driver_load_base

/-- From `s` to `s'` the handlers and pages of driver `i` went, and no others. -/
structure OnlyOwn (s s' : State) (i : ℕ) : Prop where
  irq : ∀ r ∈ (s.drivers i).resources, r.kind = .irqSpi → s'.callbacks r.value = none
  mmio : ∀ r ∈ (s.drivers i).resources, r.kind = .mmio → ∀ k < r.extra2,
    s'.page (r.value / 4096 + k) = none
  image : ∀ v, v * 4096 ∈ (s.drivers i).extent.set → s'.page v = none
  ledger : (s'.drivers i).resources = []
  callbacks : ∀ spi f, s.callbacks spi = some f →
    s'.callbacks spi = some f ∨ (s.drivers i).Contains f
  pages : ∀ v o, s.page v = some o → s'.page v = some o ∨ o = some i

/-- What the claim asks of one act. -/
def StepOk (s : State) : Act → Prop
  | .call _ => True
  | .unload i calls rc => i < s.count → (s.drivers i).MayUnload → rc = 0 →
    OnlyOwn (calls.foldl call s) (step s (.unload i calls rc)) i
  | .load i file fails calls rc unloadCalls unloadRc => i < s.count →
    (s.drivers i).present = false →
    let s₁ := auDriverLoad s i file fails
    (s₁.drivers i).present = true → (s₁.drivers i).entry = true → rc ≠ 0 →
      let s' := step s (.load i file fails calls rc unloadCalls unloadRc)
      (s'.drivers i).present = false ∧ OnlyOwn (unloadCalls.foldl call (calls.foldl call s₁)) s' i
  | .boot i file fails calls rc => i < s.count → (s.drivers i).present = false →
    ((auDriverLoad s i file fails).drivers i).entry = true → rc ≠ 0 →
      ((step s (.boot i file fails calls rc)).drivers i).present = false

/-- A handler is registered on a line that no ledger has still, the MMIO window does not wrap,
and pages are mapped outside the driver region and the MMIO window. -/
def CallKind (s : State) : Call → Prop
  | .registerSPI _ spi _ => s.callbacks spi ≠ none ∨
    ∀ i < s.count, ∀ r ∈ (s.drivers i).resources, r.kind = .irqSpi → (r.value : ℤ) ≠ spi
  | .mapMmio _ _ count _ _ => s.mmioBase + count * 4096 < 2 ^ 64
  | .mapPage virt => virt < AU_DRIVER_BASE_START ∨ KERNEL_BASE_ADDRESS ≤ virt ∧ virt < MMIO_BASE
  | _ => True

instance : ∀ s c, Decidable (CallKind s c)
  | s, .registerSPI _ spi _ => inferInstanceAs (Decidable (s.callbacks spi ≠ none ∨
      ∀ i < s.count, ∀ r ∈ (s.drivers i).resources, r.kind = .irqSpi → (r.value : ℤ) ≠ spi))
  | s, .mapMmio _ _ count _ _ => inferInstanceAs (Decidable (s.mmioBase + count * 4096 < 2 ^ 64))
  | _, .mapPage _ => inferInstanceAs (Decidable (_ ∨ _))
  | _, .clearSPI _ => inferInstanceAs (Decidable True)
  | _, .allocPage .. => inferInstanceAs (Decidable True)
  | _, .allocPages .. => inferInstanceAs (Decidable True)
  | _, .releasePage _ => inferInstanceAs (Decidable True)
  | _, .releasePages _ => inferInstanceAs (Decidable True)
  | _, .freePages .. => inferInstanceAs (Decidable True)
  | _, .ref _ => inferInstanceAs (Decidable True)
  | _, .unref _ => inferInstanceAs (Decidable True)

/-- The image is not empty, its sections lie in it, and there is a region for it. -/
def FileKind (s : State) : File → Prop
  | .image img => 0 < img.SizeOfImage ∧
    (∀ sec ∈ img.sections, sec.VirtualAddress.toNat + sec.size ≤ img.SizeOfImage.toNat) ∧
    (auDrvRegionAlloc s img.pages).2.driver_load_base ≤ KERNEL_BASE_ADDRESS
  | _ => True

instance : ∀ s f, Decidable (FileKind s f)
  | _, .image _ => inferInstanceAs (Decidable (_ ∧ _ ∧ _))
  | _, .claimed => inferInstanceAs (Decidable True)
  | _, .static => inferInstanceAs (Decidable True)
  | _, .missing => inferInstanceAs (Decidable True)

/-- A driver whose entry point fails is not loaded at boot, and it agrees to be unloaded. -/
def Kind (s : State) : Act → Prop
  | .call c => CallKind s c
  | .unload _ calls _ => Respects CallKind call s calls
  | .load i file fails calls rc unloadCalls unloadRc => (s.drivers i).present = false →
    FileKind s file ∧
    let s₁ := auDriverLoad s i file fails
    Respects CallKind call s₁ calls ∧ ((s₁.drivers i).entry = true → rc ≠ 0 →
      ((calls.foldl call s₁).drivers i).MayUnload ∧ unloadRc = 0 ∧
        Respects CallKind call (calls.foldl call s₁) unloadCalls)
  | .boot i file fails calls rc => (s.drivers i).present = false →
    FileKind s file ∧
    let s₁ := auDriverLoad s i file fails
    Respects CallKind call s₁ calls ∧ ((s₁.drivers i).entry = true → rc = 0)

instance : ∀ s a, Decidable (Kind s a)
  | s, .call c => inferInstanceAs (Decidable (CallKind s c))
  | s, .unload _ calls _ => inferInstanceAs (Decidable (Respects CallKind call s calls))
  | _, .load .. => inferInstanceAs (Decidable (_ → _ ∧ _ ∧ (_ → _ → _ ∧ _ ∧ _)))
  | _, .boot .. => inferInstanceAs (Decidable (_ → _ ∧ _ ∧ _))

end Xeneva.Audrv
