import Xeneva.Cap.Capability

/-!
# PCI handles

A driver process opens a PCI function through the controller node and gets a descriptor whose
node and capability lead to the device object.
-/

namespace Xeneva.Cap

def HWDEV_OK : ℤ := 0
def HWDEV_E_PERM : ℤ := -1
def HWDEV_E_NODEV : ℤ := -2
def HWDEV_E_BUSY : ℤ := -3
def HWDEV_E_INVAL : ℤ := -4
def HWDEV_E_NOMEM : ℤ := -5

structure PciFunc where
  place : Place
  vendor : ℕ
  device_id : ℕ
  bars : List HwBar

/-- The machine: its PCI functions in the order in which they are searched, the functions that
drivers in the kernel claim, and the group of the driver processes. -/
structure Platform where
  fns : List PciFunc
  driver : Place → Bool
  misc : ℕ

structure HwdevPciOpen where
  vendor : ℕ
  device : ℕ
  inst : ℕ

def auHwdevCallerAllowed (B : Platform) (creds : Creds) : Bool :=
  creds.gid = B.misc || B.misc ∈ creds.sgid

/-- The function with the given ids that is the `instance`-th of its kind. -/
def hwFindPci (B : Platform) (req : HwdevPciOpen) : Option PciFunc :=
  (B.fns.filter fun f => f.vendor = req.vendor && f.device_id = req.device)[req.inst]?

/-- A new handle: its node and its capability refer to a new object that claims the function. -/
def newHandle (s : State) (p fd slot : ℕ) (req : HwdevPciOpen) (f : PciFunc) : State :=
  let h := s.hw.next
  let obj : HwPci := {
    place := f.place
    vendor := req.vendor
    device_id := req.device
    bars := f.bars
    maps := []
    dmas := []
    owner := p
    spi := none }
  let node : AuVFSNode := {
    flags := FS_FLAG_GENERAL
    fileCopyCount := 0
    device := 0
    private_data := h
    close := false }
  let s := { s with
    hw := { s.hw with obj := Function.update s.hw.obj h obj, next := h + 1 }
    node := Function.update s.node s.nextNode node
    fds := setSlot s.fds p fd s.nextNode
    nextNode := s.nextNode + 1 }
  let s := (capCreate s p fd h CAP_OBJ_PCIDEV
    (CAP_HW_CFG ||| CAP_HW_MAP ||| CAP_HW_DMA ||| CAP_HW_IRQ)).1
  { s with hw := { s.hw with claims := Function.update s.hw.claims slot h } }

/-- `HWDEV_IOC_PCI_OPEN`: a handle, or an error. The request is `none` where its pointer is
not the user's; `mem` tells whether `kmalloc` gives memory. -/
def pciOpen (B : Platform) (s : State) (p : ℕ) (req : Option HwdevPciOpen) (mem : Bool) :
    State × Except ℤ ℕ :=
  if !auHwdevCallerAllowed B (s.creds p) then (s, .error HWDEV_E_PERM)
  else match req with
    | none => (s, .error HWDEV_E_INVAL)
    | some req =>
      if req.inst > 7 then (s, .error HWDEV_E_INVAL)
      else if !hwAllowedDevice req.vendor req.device then (s, .error HWDEV_E_PERM)
      else match hwFindPci B req with
        | none => (s, .error HWDEV_E_NODEV)
        | some f =>
          if B.driver f.place then (s, .error HWDEV_E_BUSY)
          else if auHwdevClaimsPci s.hw f.place then (s, .error HWDEV_E_BUSY)
          else match (List.range HW_MAX_CLAIMS).find? fun i => s.hw.claims i = 0 with
            | none => (s, .error HWDEV_E_NOMEM)
            | some slot => match auProcessGetFileDesc (s.fds p) with
              | none => (s, .error HWDEV_E_NOMEM)
              | some fd =>
                if !mem then (s, .error HWDEV_E_NOMEM)
                else (newHandle s p fd slot req f, .ok fd)

/-- The calls that change something: a write of the command register, a mapping of a register
range at `va`, DMA memory at `phys` (0 if there is none), and the interrupt `spi` that the
controller gives, with `msi` telling whether the device takes it. -/
inductive HwIoctl
  | cfgWrite (value : BitVec 16)
  | mapBar (bar offset length va : ℕ) (mem : Bool)
  | dmaAlloc (length va phys : ℕ) (mem : Bool)
  | irqSetup (spi : ℕ) (msi : Bool)

def hwCapFor (s : State) (p n : ℕ) : Option ℕ :=
  (List.range FILE_DESC_PER_PROCESS).find? fun i =>
    s.fds p i = n && (s.caps p i).valid && (s.caps p i).object_type = CAP_OBJ_PCIDEV

def setObj (hw : Hw) (h : ℕ) (obj : HwPci) : Hw := { hw with obj := Function.update hw.obj h obj }

/-- The command register takes memory decoding, bus mastering and the interrupt bit only. -/
def cfgWrite (hw : Hw) (h : ℕ) (value : BitVec 16) : Hw :=
  let place := (hw.obj h).place
  let allowed := PCI_CMD_MEM ||| PCI_CMD_MASTER ||| PCI_CMD_INTXOFF
  let cmd := hw.command place &&& ~~~allowed ||| value &&& allowed
  { hw with command := Function.update hw.command place cmd }

def mapBar (hw : Hw) (h bar offset length va : ℕ) (mem : Bool) : Hw × ℤ :=
  let obj := hw.obj h
  match obj.bars[bar]? with
  | none => (hw, HWDEV_E_INVAL)
  | some b =>
    let len := (length + 4095) % 2 ^ 64 / 4096 * 4096
    if !b.mem ∨ b.size = 0 then (hw, HWDEV_E_INVAL)
    else if offset % 4096 ≠ 0 ∨ length = 0 ∨ len < length ∨ (offset + len) % 2 ^ 64 < offset ∨
        (b.size + 4095) / 4096 * 4096 < (offset + len) % 2 ^ 64 then (hw, HWDEV_E_INVAL)
    else if HW_MAX_MAPS ≤ obj.maps.length then (hw, HWDEV_E_NOMEM)
    else if !mem then (hw, HWDEV_E_NOMEM)
    else (setObj hw h { obj with maps := ⟨va, len, bar, offset⟩ :: obj.maps }, HWDEV_OK)

def dmaAlloc (hw : Hw) (h length va phys : ℕ) (mem : Bool) : Hw × ℤ :=
  let obj := hw.obj h
  let pages := (length + 4095) % 2 ^ 64 / 4096
  if length = 0 ∨ HW_MAX_DMA_PAGES < pages then (hw, HWDEV_E_INVAL)
  else if HW_MAX_DMAS ≤ obj.dmas.length then (hw, HWDEV_E_NOMEM)
  else if !mem then (hw, HWDEV_E_NOMEM)
  else if phys = 0 then (hw, HWDEV_E_NOMEM)
  else (setObj hw h { obj with dmas := ⟨va, phys, pages⟩ :: obj.dmas }, HWDEV_OK)

def irqSetup (hw : Hw) (h spi : ℕ) (msi : Bool) : Hw × ℤ :=
  let obj := hw.obj h
  if obj.spi.isSome then (hw, HWDEV_E_BUSY)
  else if spi = 0 ∨ HW_MAX_SPI ≤ spi ∨ hw.spi_owner spi ≠ 0 then (hw, HWDEV_E_NOMEM)
  else if !msi then (hw, HWDEV_E_NODEV)
  else
    let hw := { hw with spi_owner := Function.update hw.spi_owner spi h }
    (setObj hw h { obj with spi := some spi }, HWDEV_OK)

/-- What a call with these rights does. -/
def handleCode (hw : Hw) (h : ℕ) (rights : CapRights) : HwIoctl → Hw × ℤ
  | .cfgWrite value =>
    if rights &&& CAP_HW_CFG = 0 then (hw, HWDEV_E_PERM) else (cfgWrite hw h value, HWDEV_OK)
  | .mapBar bar offset length va mem =>
    if rights &&& CAP_HW_MAP = 0 then (hw, HWDEV_E_PERM)
    else mapBar hw h bar offset length va mem
  | .dmaAlloc length va phys mem =>
    if rights &&& CAP_HW_DMA = 0 then (hw, HWDEV_E_PERM) else dmaAlloc hw h length va phys mem
  | .irqSetup spi msi =>
    if rights &&& CAP_HW_IRQ = 0 then (hw, HWDEV_E_PERM) else irqSetup hw h spi msi

/-- A call, once its argument is known to be the user's. -/
def hwHandleIoctl (s : State) (p n : ℕ) (code : HwIoctl) : State × ℤ :=
  let h := (s.node n).private_data
  if h = 0 ∨ (s.hw.obj h).owner ≠ p then (s, HWDEV_E_PERM)
  else match hwCapFor s p n with
    | none => (s, HWDEV_E_PERM)
    | some i =>
      let r := handleCode s.hw h (s.caps p i).rights code
      ({ s with hw := r.1 }, r.2)

/-- What processes do with handles and with other descriptors. -/
inductive HwOp
  | pciOpen (p : ℕ) (req : Option HwdevPciOpen) (mem : Bool)
  | ioctl (p : ℕ) (fd : ℤ) (code : HwIoctl)
  | openFile (p n : ℕ) (mode : BitVec 32) (driver : Bool)
  | pass (p : ℕ) (fileno dest_fdidx : Fin FILE_DESC_PER_PROCESS) (proc_id : ℕ)
  | dup (p : ℕ) (oldfd newfd : ℤ)
  | restrict (p : ℕ) (fd : ℤ) (new_rights : CapRights)
  | inherit (parent child : ℕ)
  | destroy (p : ℕ) (fd : ℤ)
  | close (p : ℕ) (fd : ℤ)
  | exit (p : ℕ)

def hwStep (B : Platform) (s : State) : HwOp → State
  | .pciOpen p req mem => (pciOpen B s p req mem).1
  | .ioctl p fd code =>
    match capSlot fd with
    | none => s
    | some i => if s.fds p i = 0 then s else (hwHandleIoctl s p (s.fds p i) code).1
  | .openFile p n mode driver =>
    if 0 < n ∧ n < s.nextNode then (openFile s p n mode driver).1 else s
  | .pass p fileno dest_fdidx proc_id => (setFileToProcess s p fileno dest_fdidx proc_id).1
  | .dup p oldfd newfd => (capDup s p oldfd newfd).1
  | .restrict p fd new_rights => (capRestrict s p fd new_rights).1
  | .inherit parent child => capInheritTable s parent child
  | .destroy p fd => capDestroy s p fd
  | .close p fd => (closeFile s p fd).1
  | .exit p => auProcessCloseFiles s p

end Xeneva.Cap
