import Mathlib

/-!
# PCI device objects

The kernel keeps one `HwPci` for each PCI function that a process has opened. Objects are
numbered in the order `kmalloc` hands them out, 0 is `NULL`; a freed object keeps the contents
it had, as its memory does.
-/

namespace Xeneva.Cap

def HW_MAX_CLAIMS : ℕ := 32
def HW_MAX_MAPS : ℕ := 16
def HW_MAX_DMA_PAGES : ℕ := 256
def HW_MAX_DMAS : ℕ := 16
def HW_MAX_SPI : ℕ := 1024

def PCI_CMD_IO : BitVec 16 := 1
def PCI_CMD_MEM : BitVec 16 := 2
def PCI_CMD_MASTER : BitVec 16 := 4
def PCI_CMD_INTXOFF : BitVec 16 := 0x400

def HWDEV_BAR_MEM : ℕ := 1

structure HwMap where
  uaddr : ℕ
  len : ℕ
  bar : ℕ
  offset : ℕ
deriving DecidableEq

structure HwDma where
  uaddr : ℕ
  phys : ℕ
  pages : ℕ
deriving DecidableEq

/-- A base address register; `mem` is its `HWDEV_BAR_MEM` flag. -/
structure HwBar where
  base : ℕ
  size : ℕ
  mem : Bool
deriving DecidableEq

/-- Bus, device and function number. -/
abbrev Place := ℕ × ℕ × ℕ

/-- `spi` is `none` where the source has -1. -/
structure HwPci where
  place : Place
  vendor : ℕ
  device_id : ℕ
  bars : List HwBar
  maps : List HwMap
  dmas : List HwDma
  owner : ℕ
  spi : Option ℕ
deriving DecidableEq

instance : Inhabited HwPci := ⟨⟨(0, 0, 0), 0, 0, [], [], [], 0, none⟩⟩

/-- Device objects and the devices. `command` is a function's command register; `released`
counts the releases of an object, and `returned` has the DMA memory they gave back. -/
structure Hw where
  obj : ℕ → HwPci
  next : ℕ
  claims : ℕ → ℕ
  spi_owner : ℕ → ℕ
  command : Place → BitVec 16
  released : ℕ → ℕ
  returned : ℕ → List ℕ

/-- No device is open. -/
def Hw.boot (command : Place → BitVec 16) : Hw where
  obj _ := default
  next := 1
  claims _ := 0
  spi_owner _ := 0
  command
  released _ := 0
  returned _ := []

def hwStopDevice (hw : Hw) (h : ℕ) : Hw :=
  let place := (hw.obj h).place
  let cmd := hw.command place &&& ~~~(PCI_CMD_MEM ||| PCI_CMD_MASTER ||| PCI_CMD_IO)
  { hw with command := Function.update hw.command place cmd }

/-- The device's interrupt is no longer routed here. -/
def dropInterrupt (hw : Hw) (h : ℕ) : Hw :=
  match (hw.obj h).spi with
  | none => hw
  | some spi => { hw with
      spi_owner := Function.update hw.spi_owner spi 0
      obj := Function.update hw.obj h { hw.obj h with spi := none } }

/-- What losing a capability does to its device object. -/
def auHwdevCapReleased (hw : Hw) (h : ℕ) : Hw :=
  if h = 0 then hw
  else
    let hw := dropInterrupt (hwStopDevice hw h) h
    { hw with
      returned := Function.update hw.returned h
        (hw.returned h ++ (hw.obj h).dmas.map HwDma.phys)
      claims := fun i => if hw.claims i = h then 0 else hw.claims i
      released := Function.update hw.released h (hw.released h + 1) }

def auHwdevClaimsPci (hw : Hw) (place : Place) : Bool :=
  (List.range HW_MAX_CLAIMS).any fun i =>
    hw.claims i ≠ 0 && (hw.obj (hw.claims i)).place = place

/-- The devices that user space may drive. -/
def hw_allow : List (ℕ × ℕ) :=
  [(0x1AF4, 0x1050), (0x1AF4, 0x1059), (0x1AF4, 0x1052), (0x1AF4, 0x1041)]

def hwAllowedDevice (vendor device : ℕ) : Bool := (vendor, device) ∈ hw_allow

variable {hw : Hw} {h k : ℕ}

@[simp] theorem hwStopDevice_obj : (hwStopDevice hw h).obj = hw.obj := rfl
@[simp] theorem hwStopDevice_next : (hwStopDevice hw h).next = hw.next := rfl
@[simp] theorem hwStopDevice_claims : (hwStopDevice hw h).claims = hw.claims := rfl
@[simp] theorem hwStopDevice_spi_owner : (hwStopDevice hw h).spi_owner = hw.spi_owner := rfl
@[simp] theorem hwStopDevice_released : (hwStopDevice hw h).released = hw.released := rfl
@[simp] theorem hwStopDevice_returned : (hwStopDevice hw h).returned = hw.returned := rfl

/-- Only the object's own number of an interrupt is cleared. -/
theorem dropInterrupt_eq (hw : Hw) (h : ℕ) : dropInterrupt hw h = { hw with
    spi_owner := fun k => if (hw.obj h).spi = some k then 0 else hw.spi_owner k
    obj := Function.update hw.obj h { hw.obj h with spi := none } } := by
  unfold dropInterrupt
  cases hs : (hw.obj h).spi with
  | none =>
    have hu : Function.update hw.obj h { hw.obj h with spi := none } = hw.obj := by
      rw [← hs]
      exact Function.update_eq_self h hw.obj
    simp [hu]
  | some spi =>
    have hu : Function.update hw.spi_owner spi 0 =
        fun k => if some spi = some k then 0 else hw.spi_owner k := by
      funext k
      by_cases hk : k = spi
      · simp [hk]
      · simp [hk, Ne.symm hk]
    simp only [hu]

/-- The release hook, field by field. -/
theorem auHwdevCapReleased_eq (h0 : h ≠ 0) : auHwdevCapReleased hw h =
    { obj := Function.update hw.obj h { hw.obj h with spi := none }
      next := hw.next
      claims := fun i => if hw.claims i = h then 0 else hw.claims i
      spi_owner := fun k => if (hw.obj h).spi = some k then 0 else hw.spi_owner k
      command := (hwStopDevice hw h).command
      released := Function.update hw.released h (hw.released h + 1)
      returned := Function.update hw.returned h
        (hw.returned h ++ (hw.obj h).dmas.map HwDma.phys) } := by
  rw [auHwdevCapReleased, if_neg h0, dropInterrupt_eq]
  simp only [hwStopDevice_obj, hwStopDevice_next, hwStopDevice_claims, hwStopDevice_spi_owner,
    hwStopDevice_released, hwStopDevice_returned, Function.update_self]
  rfl

/-- A stopped device masters the bus no more. -/
theorem hwStopDevice_command (place : Place) : (hwStopDevice hw h).command place =
    if place = (hw.obj h).place then
      hw.command place &&& ~~~(PCI_CMD_MEM ||| PCI_CMD_MASTER ||| PCI_CMD_IO)
    else hw.command place := by
  by_cases hp : place = (hw.obj h).place
  · simp [hwStopDevice, hp]
  · simp [hwStopDevice, hp]

end Xeneva.Cap
