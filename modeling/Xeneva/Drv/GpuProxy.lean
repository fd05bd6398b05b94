import Mathlib

/-!
# The GPU proxy

One process at a time serves the display. It takes the pending damage as a frame, one frame at a
time, and acknowledges it; damage that comes meanwhile is merged into one rectangle. Calls run with
interrupts masked.
-/

namespace Xeneva.Gpu

def GPUSRV_VERSION : ℕ := 1
def GPUSRV_MAX_BACKING : ℕ := 16
def GPUSRV_MAX_BACKING_BYTES : ℕ := 1024 * 1024

inductive GpuSrvResult
  | ok | perm | inval | busy | empty | unavailable
  deriving DecidableEq, Repr

structure GpuDamage where
  width : ℕ := 0
  height : ℕ := 0
  left : ℕ := 0
  top : ℕ := 0
  right : ℕ := 0
  bottom : ℕ := 0
  dirty : Bool := false
  busy : Bool := false
  next : ℕ := 0
  pending : ℕ := 0
  deriving DecidableEq, Repr

structure GpuSrvFrame where
  sequence : ℕ
  x : ℕ
  y : ℕ
  width : ℕ
  height : ℕ
  deriving DecidableEq, Repr

/-- A rectangle that is empty or not inside the display is refused. -/
def gpuDamageAdd (d : GpuDamage) (x y w h : ℕ) : Option GpuDamage :=
  if w = 0 ∨ h = 0 ∨ x ≥ d.width ∨ y ≥ d.height ∨ w > d.width - x ∨ h > d.height - y then none
  else
    let r := x + w
    let b := y + h
    if !d.dirty then some { d with left := x, top := y, right := r, bottom := b, dirty := true }
    else some { d with
      left := if x < d.left then x else d.left
      top := if y < d.top then y else d.top
      right := if r > d.right then r else d.right
      bottom := if b > d.bottom then b else d.bottom }

/-- Frame numbers have 64 bits, and zero is none of them. -/
def gpuDamageTake (d : GpuDamage) : Except GpuSrvResult (GpuDamage × GpuSrvFrame) :=
  if d.busy then .error .busy
  else if !d.dirty then .error .empty
  else
    let next := (d.next + 1) % 2 ^ 64
    let next := if next = 0 then next + 1 else next
    .ok ({ d with next, pending := next, busy := true, dirty := false },
      ⟨next, d.left, d.top, d.right - d.left, d.bottom - d.top⟩)

def gpuDamageAck (d : GpuDamage) (sequence : ℕ) : Option GpuDamage :=
  if !d.busy ∨ sequence ≠ d.pending then none else some { d with busy := false }

/-- The whole display is damaged again; the frame numbers go on. -/
def gpuDamageReset (d : GpuDamage) : GpuDamage :=
  let d := { d with busy := false }
  (gpuDamageAdd d 0 0 d.width d.height).getD d

/-! ## The proxy -/

structure GpuSrvBacking where
  phys : ℕ
  length : ℕ
  deriving DecidableEq, Repr

/-- Processes and devices are their addresses, `none` is the null pointer. -/
structure GpuProxy where
  gpu_owner : Option ℕ
  gpu_hw_device : Option ℕ
  gpu_backing : List GpuSrvBacking
  gpu_backing_bytes : ℕ
  gpu_width : ℕ
  gpu_height : ℕ
  gpu_pitch : ℕ
  gpu_generation : ℕ
  gpu_submitted : ℕ
  gpu_completed : ℕ
  gpu_damage : GpuDamage
  gpu_attached : Bool
  gpu_ready : Bool
  deriving DecidableEq, Repr

/-- The console's framebuffer, where the checks of `gpu_source` pass. -/
structure Source where
  width : ℕ
  height : ℕ
  pitch : ℕ
  size : ℕ
  deriving DecidableEq, Repr

/-- Whether the last visible byte of a rectangle lies in the buffer. -/
def gpuExtent (pitch x y width height capacity : ℕ) : Bool :=
  let row_bytes := width * 4
  let x_bytes := x * 4
  let last_row := y + height - 1
  if pitch = 0 ∨ width = 0 ∨ height = 0 ∨ x_bytes > pitch ∨ row_bytes > pitch - x_bytes ∨
      last_row > capacity / pitch then false
  else
    let last := last_row * pitch
    ¬ (x_bytes > capacity - last ∨ row_bytes > capacity - last - x_bytes)

/-- What a call to take a frame meets: the console, whether the rows fit the server's buffers, and
whether the frame can be written to the server. -/
structure TakeEnv where
  source : Option Source
  rows : Bool
  copyout : Bool
  deriving DecidableEq, Repr

def gpuCopyRect (s : GpuProxy) (env : TakeEnv) (f : GpuSrvFrame) : Bool :=
  match env.source with
  | none => false
  | some source =>
    if source.width ≠ s.gpu_width ∨ source.height ≠ s.gpu_height ∨ s.gpu_pitch = 0 then false
    else if f.width = 0 ∨ f.height = 0 ∨ f.x ≥ s.gpu_width ∨ f.y ≥ s.gpu_height ∨
        f.width > s.gpu_width - f.x ∨ f.height > s.gpu_height - f.y then false
    else gpuExtent source.pitch f.x f.y f.width f.height source.size ∧
      gpuExtent s.gpu_pitch f.x f.y f.width f.height s.gpu_backing_bytes ∧ env.rows

structure GpuSrvAcquire where
  version : ℕ
  width : ℕ
  height : ℕ
  backing : List GpuSrvBacking
  deriving DecidableEq, Repr

/-- What a call to serve the display meets: the caller's rights and device, the console, the copies
from and to the caller. -/
structure AcquireEnv where
  daemon : Bool
  copyin : Bool
  isDevice : Bool
  source : Option Source
  ownsDma : GpuSrvBacking → Bool
  hwObject : Option ℕ
  copyout : Bool

/-- The size of all buffers, if each of them passes. -/
def backingTotal (ownsDma : GpuSrvBacking → Bool) : List GpuSrvBacking → ℕ → Option ℕ
  | [], total => some total
  | b :: rest, total =>
    if b.phys = 0 ∨ b.length = 0 ∨ b.length > GPUSRV_MAX_BACKING_BYTES ∨ b.phys % 4096 ≠ 0 ∨
        b.phys > 2 ^ 64 - 1 - b.length ∨ !ownsDma b ∨ b.length > 2 ^ 64 - 1 - total then none
    else backingTotal ownsDma rest (total + b.length)

/-- The bytes of the display. -/
def bytesOf (req : GpuSrvAcquire) : ℕ := req.width * req.height * 4

/-- A generation has 64 bits and is not zero. -/
def nextGeneration (generation : ℕ) : ℕ :=
  if (generation + 1) % 2 ^ 64 = 0 then 1 else (generation + 1) % 2 ^ 64

/-- The checks of a request, with the size of its buffers where it passes. -/
def gpuAcquireCheck (s : GpuProxy) (req : GpuSrvAcquire) (env : AcquireEnv) :
    Except GpuSrvResult ℕ :=
  if !env.daemon then .error .perm
  else if !env.copyin then .error .inval
  else if s.gpu_attached then .error .busy
  else if req.version ≠ GPUSRV_VERSION ∨ req.backing.length = 0 ∨
      req.backing.length > GPUSRV_MAX_BACKING then .error .inval
  else if !env.isDevice then .error .perm
  else match env.source with
    | none => .error .inval
    | some source =>
      if req.width ≠ source.width ∨ req.height ≠ source.height then .error .inval
      else if bytesOf req = 0 ∨ bytesOf req > GPUSRV_MAX_BACKING * GPUSRV_MAX_BACKING_BYTES then
        .error .inval
      else match backingTotal env.ownsDma req.backing 0 with
        | none => .error .inval
        | some total =>
          if total < bytesOf req then .error .inval
          else if env.hwObject = none then .error .perm
          else if !env.copyout then .error .inval
          else .ok total

/-- A caller whose request passes becomes the server of the display. -/
def gpuAcquire (s : GpuProxy) (proc : Option ℕ) (req : GpuSrvAcquire) (env : AcquireEnv) :
    GpuProxy × GpuSrvResult :=
  match gpuAcquireCheck s req env with
  | .error rc => (s, rc)
  | .ok total =>
    ({ gpu_owner := proc
       gpu_hw_device := env.hwObject
       gpu_backing := req.backing
       gpu_backing_bytes := total
       gpu_width := req.width
       gpu_height := req.height
       gpu_pitch := req.width * 4
       gpu_generation := nextGeneration s.gpu_generation
       gpu_submitted := 0
       gpu_completed := 0
       gpu_damage := gpuDamageReset { width := req.width, height := req.height }
       gpu_attached := true
       gpu_ready := true }, .ok)

/-- A frame that does not reach the server is given back to the damage. -/
def gpuTake (s : GpuProxy) (proc : Option ℕ) (env : TakeEnv) :
    GpuProxy × Except GpuSrvResult GpuSrvFrame :=
  if proc ≠ s.gpu_owner ∨ !s.gpu_attached ∨ !s.gpu_ready then (s, .error .perm)
  else match gpuDamageTake s.gpu_damage with
    | .error rc => (s, .error rc)
    | .ok (d, frame) =>
      let rc : GpuSrvResult :=
        if !gpuCopyRect s env frame then .unavailable
        else if !env.copyout then .inval
        else .ok
      if rc ≠ .ok then
        let d := (gpuDamageAck d frame.sequence).getD d
        let d := (gpuDamageAdd d frame.x frame.y frame.width frame.height).getD d
        ({ s with gpu_damage := d }, .error rc)
      else ({ s with gpu_damage := d, gpu_submitted := s.gpu_submitted + 1 }, .ok frame)

def gpuAck (s : GpuProxy) (proc : Option ℕ) (copyin : Bool) (sequence : ℕ) :
    GpuProxy × GpuSrvResult :=
  if proc = none ∨ proc ≠ s.gpu_owner then (s, .perm)
  else if !copyin then (s, .inval)
  else match gpuDamageAck s.gpu_damage sequence with
    | none => (s, .inval)
    | some d => ({ s with gpu_damage := d, gpu_completed := s.gpu_completed + 1 }, .ok)

/-- The damage call of the display's owner. -/
def gpuDamageCall (s : GpuProxy) (displayOwner copyin : Bool) (x y w h : ℕ) :
    GpuProxy × GpuSrvResult :=
  if !displayOwner then (s, .perm)
  else if !copyin then (s, .inval)
  else match gpuDamageAdd s.gpu_damage x y w h with
    | none => (s, .inval)
    | some d => ({ s with gpu_damage := d }, .ok)

/-- The kernel console's own damage; a result is not looked at. -/
def auGpuProxyDamage (s : GpuProxy) (x y width height : ℤ) : GpuProxy :=
  if s.gpu_attached ∧ s.gpu_ready ∧ width > 0 ∧ height > 0 then
    { s with gpu_damage :=
      (gpuDamageAdd s.gpu_damage x.toNat y.toNat width.toNat height.toNat).getD s.gpu_damage }
  else s

def auGpuProxyOwnerGone (s : GpuProxy) (proc hw_device : Option ℕ) : GpuProxy :=
  if proc ≠ s.gpu_owner ∨ hw_device ≠ s.gpu_hw_device then s
  else { s with
    gpu_owner := none
    gpu_hw_device := none
    gpu_backing := []
    gpu_backing_bytes := 0
    gpu_attached := false
    gpu_ready := false
    gpu_width := 0
    gpu_height := 0
    gpu_pitch := 0
    gpu_damage := {} }

inductive GpuOp
  | acquire (proc : Option ℕ) (req : GpuSrvAcquire) (env : AcquireEnv)
  | damage (displayOwner copyin : Bool) (x y w h : ℕ)
  | consoleDamage (x y width height : ℤ)
  | take (proc : Option ℕ) (env : TakeEnv)
  | ack (proc : Option ℕ) (copyin : Bool) (sequence : ℕ)
  | ownerGone (proc hw_device : Option ℕ)

def gpuStep (s : GpuProxy) : GpuOp → GpuProxy
  | .acquire proc req env => (gpuAcquire s proc req env).1
  | .damage displayOwner copyin x y w h => (gpuDamageCall s displayOwner copyin x y w h).1
  | .consoleDamage x y width height => auGpuProxyDamage s x y width height
  | .take proc env => (gpuTake s proc env).1
  | .ack proc copyin sequence => (gpuAck s proc copyin sequence).1
  | .ownerGone proc hw_device => auGpuProxyOwnerGone s proc hw_device

def bootGpu : GpuProxy where
  gpu_owner := none
  gpu_hw_device := none
  gpu_backing := []
  gpu_backing_bytes := 0
  gpu_width := 0
  gpu_height := 0
  gpu_pitch := 0
  gpu_generation := 0
  gpu_submitted := 0
  gpu_completed := 0
  gpu_damage := {}
  gpu_attached := false
  gpu_ready := false

end Xeneva.Gpu
