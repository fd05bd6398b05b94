import Xeneva.Base.Run
import Xeneva.Base.Ring

/-!
# The sound proxy

The kernel copies the mixer's audio into a ring in memory that the sound server shares and may
change at any time. A write is four steps, so that the server, a detach and other writers can
come between them; so is each of attach and detach two.
-/

namespace Xeneva.Sndproxy
open Base

def SNDSRV_RING_MAGIC : UInt32 := 0x31565253

def SNDSRV_DATA_OFFSET : ℕ := 4096

def PX_CARRY_MAX_AGE_MS : UInt64 := 1500

/-- `head` and `tail` are free-running byte counters. -/
structure SndRingHdr where
  magic : UInt32 := SNDSRV_RING_MAGIC
  size : UInt32
  period : UInt32 := 0
  head : UInt32 := 0
  tail : UInt32 := 0
  running : UInt32 := 0
  dropped : UInt32 := 0

def sizeofHdr : ℕ := 32

/-- A ring in memory; `data` starts `SNDSRV_DATA_OFFSET` bytes in. -/
structure Ring where
  hdr : SndRingHdr
  data : ℕ → UInt8

/-- `size >= 4096 && !(size & (size - 1))` -/
def sizeOk (size : UInt32) : Bool := 4096 ≤ size && size &&& (size - 1) == 0

/-- The bytes between `tail` and `head`. -/
def Ring.pending (r : Ring) : List UInt8 :=
  window r.data r.hdr.size.toNat (r.hdr.tail.toNat % r.hdr.size.toNat)
    (r.hdr.head - r.hdr.tail).toNat

/-- The DMA buffer of an attach request. -/
structure RingRef where
  ring_phys : ℕ
  ring_len : ℕ
deriving DecidableEq

/-- `hdr` and `data` point into `ring`, `owner` is a process id. -/
structure Px where
  attached : Bool := false
  inflight : ℤ := 0
  owner : Option ℕ := none
  ring : Option RingRef := none
  carry : Option (List UInt8) := none
  carry_ms : UInt64 := 0
  written : ℕ := 0
  dropped : ℕ := 0
  calls : ℕ := 0

/-- Where a thread is in `px_write`: before the ring is read, between the copy and the store of
`head`, and before the writer is counted out. -/
inductive Writer
  | idle
  | inside (r : RingRef) (buf : List UInt8)
  | copied (r : RingRef) (buf : List UInt8) (head : UInt32) (len : ℕ)
  | leaving

/-- `len` bytes of a buffer from `off` on; `own` says that the buffer was the attached one. -/
structure Access where
  ring : RingRef
  own : Bool
  off : ℕ
  len : ℕ
deriving DecidableEq

/-- `attachers` are the requests between their two steps, with the caller, and `draining` counts
the threads in the drain loop of `px_detach`. `accepted` is the audio of the writes that
returned 0, without what a restart may drop, `consumed` is what servers took, and `refused`
counts the writes turned away by an attached ring that was not full. -/
structure Machine where
  px : Px := {}
  rings : ℕ → Ring
  writers : ℕ → Writer := fun _ => .idle
  attachers : ℕ → Option (RingRef × ℕ) := fun _ => none
  draining : ℕ := 0
  accesses : List Access := []
  accepted : List UInt8 := []
  consumed : List UInt8 := []
  refused : ℕ := 0

def Machine.setRing (s : Machine) (r : RingRef) (ring : Ring) : Machine :=
  { s with rings := Function.update s.rings r.ring_phys ring }

def Machine.setWriter (s : Machine) (t : ℕ) (w : Writer) : Machine :=
  { s with writers := Function.update s.writers t w }

def Machine.touch (s : Machine) (r : RingRef) (off len : ℕ) : Machine :=
  { s with accesses := ⟨r, s.px.ring == some r, off, len⟩ :: s.accesses }

/-- The two pieces of `len` bytes of the data area from `off` on. -/
def Machine.touchRing (s : Machine) (r : RingRef) (size off len : ℕ) : Machine :=
  let first := min len (size - off)
  (s.touch r (SNDSRV_DATA_OFFSET + off) first).touch r SNDSRV_DATA_OFFSET (len - first)

/-- Under the lock: the writer is counted in. -/
def pxWriteEnter (s : Machine) (t : ℕ) (buf : List UInt8) : Machine :=
  if buf = [] then s
  else if !s.px.attached then s
  else match s.px.ring with
    | none => s
    | some r =>
      { s with px := { s.px with inflight := s.px.inflight + 1 } }.setWriter t (.inside r buf)

/-- The two copies into the data area, `len` bytes in all. -/
def copyIn (data : ℕ → UInt8) (size off len : ℕ) (buf : List UInt8) : ℕ → UInt8 :=
  let first := min len (size - off)
  let data := memcpy data off (buf.take first)
  if first < len then memcpy data 0 ((buf.take len).drop first) else data

/-- The header is read and the bytes are copied, when they fit. -/
def pxWriteCopy (s : Machine) (t : ℕ) (r : RingRef) (buf : List UInt8) : Machine :=
  let ring := s.rings r.ring_phys
  let size := ring.hdr.size
  let s := s.touch r 0 sizeofHdr
  if sizeOk size then
    let len := min buf.length size.toNat
    let s := { s with px := { s.px with calls := s.px.calls + 1 } }
    if (size - (ring.hdr.head - ring.hdr.tail)).toNat < len then
      let hdr := { ring.hdr with dropped := ring.hdr.dropped + UInt32.ofNat len }
      ({ s with px := { s.px with dropped := s.px.dropped + len } }.setRing r
        { ring with hdr }).setWriter t .leaving
    else
      let head := ring.hdr.head
      let off := (head &&& (size - 1)).toNat
      let data := copyIn ring.data size.toNat off len buf
      ((s.touchRing r size.toNat off len).setRing r { ring with data }).setWriter t
        (.copied r buf head len)
  else { s with refused := s.refused + 1 }.setWriter t .leaving

/-- `head` is stored: the write is accepted, all of it as far as the caller can tell. -/
def pxWritePublish (s : Machine) (t : ℕ) (r : RingRef) (buf : List UInt8) (head : UInt32)
    (len : ℕ) : Machine :=
  let ring := s.rings r.ring_phys
  let hdr := { ring.hdr with head := head + UInt32.ofNat len }
  let s := (s.touch r 0 sizeofHdr).setRing r { ring with hdr }
  { s with
    px := { s.px with written := s.px.written + len }
    accepted := s.accepted ++ buf }.setWriter t .leaving

def pxWriteLeave (s : Machine) (t : ℕ) : Machine :=
  { s with px := { s.px with inflight := s.px.inflight - 1 } }.setWriter t .idle

/-- Writers see `attached` and bail out from now on. -/
def pxDetachBegin (s : Machine) : Machine :=
  if !s.px.attached then s
  else { s with px := { s.px with attached := false }, draining := s.draining + 1 }

/-- The writers are out: what the server has not consumed is carried over. `alloc` says that
the allocation for it succeeds. -/
def pxDetachEnd (s : Machine) (alloc : Bool) (now : UInt64) : Machine :=
  let px := { s.px with carry := none }
  let s := match px.ring with
    | none => { s with px }
    | some r =>
      let ring := s.rings r.ring_phys
      let size := ring.hdr.size.toNat
      let s := { s with px }.touch r 0 sizeofHdr
      let pending := min (ring.hdr.head - ring.hdr.tail).toNat size
      if pending ≠ 0 ∧ alloc then
        let off := (ring.hdr.tail &&& (ring.hdr.size - 1)).toNat
        let first := min pending (size - off)
        let c := memread ring.data off first ++ memread ring.data 0 (pending - first)
        let s := s.touchRing r size off pending
        { s with px := { s.px with carry := some c, carry_ms := now } }
      else s
  { s with px := { s.px with ring := none, owner := none }, draining := s.draining - 1 }

/-- An attach request, which stays as it is during the call, with what its checks find: that the
caller may attach, and that the buffer is one of its own. -/
structure SndsrvAttach where
  ring : RingRef
  allowed : Bool
  owns : Bool

def resetRing (s : Machine) (r : RingRef) : Machine :=
  let ring := s.rings r.ring_phys
  let hdr := { ring.hdr with head := 0, tail := 0, dropped := 0, running := 0 }
  s.setRing r { ring with hdr }

/-- The audio that a restart may drop. -/
def Machine.forgive (s : Machine) (k : ℕ) : Machine :=
  { s with accepted := s.accepted.take (s.accepted.length - k) }

/-- `discarded n bytes of stale carried audio` -/
def dropStale (s : Machine) (now : UInt64) : Machine :=
  match s.px.carry with
  | none => s
  | some c =>
    if now - s.px.carry_ms > PX_CARRY_MAX_AGE_MS then
      { s with px := { s.px with carry := none } }.forgive c.length
    else s

/-- `carried n bytes over from the previous server` -/
def replay (s : Machine) (r : RingRef) : Machine :=
  match s.px.carry with
  | none => s
  | some c =>
    let ring := s.rings r.ring_phys
    let n := min c.length ring.hdr.size.toNat
    let hdr := { ring.hdr with head := UInt32.ofNat n }
    let ring := { hdr, data := memcpy ring.data 0 (c.take n) }
    let acc : Access := ⟨r, true, SNDSRV_DATA_OFFSET, n⟩
    { s with
      px := { s.px with carry := none }
      rings := Function.update s.rings r.ring_phys ring
      accesses := acc :: s.accesses }.forgive (c.length - n)

/-- The request is checked, the header is reset and the carried audio is replayed. -/
def attachBegin (s : Machine) (t proc : ℕ) (req : SndsrvAttach) (now : UInt64) : Machine :=
  let r := req.ring
  if !req.allowed then s
  else if s.px.attached then s
  else if r.ring_len < SNDSRV_DATA_OFFSET + 4096 ∨ r.ring_phys &&& 0xFFF ≠ 0 then s
  else if !req.owns then s
  else
    let ring := s.rings r.ring_phys
    let acc : Access := ⟨r, true, 0, sizeofHdr⟩
    let s := { s with accesses := acc :: s.accesses }
    if ring.hdr.magic ≠ SNDSRV_RING_MAGIC ∨ !sizeOk ring.hdr.size ∨
        ring.hdr.size.toNat + SNDSRV_DATA_OFFSET > r.ring_len then s
    else
      let s := replay (dropStale (resetRing s r) now) r
      { s with attachers := Function.update s.attachers t (some (r, proc)) }

/-- Under the lock the ring is published; then the card is registered, or not. -/
def attachEnd (s : Machine) (t : ℕ) (registers : Bool) : Machine :=
  match s.attachers t with
  | none => s
  | some (r, proc) =>
    let s := { s with attachers := Function.update s.attachers t none }
    if s.px.attached then s
    else if registers then
      { s with px := { s.px with
          ring := some r, owner := some proc, written := 0, dropped := 0, calls := 0
          inflight := 0, attached := true } }
    else
      { s with px := { s.px with
          ring := none, owner := none, written := 0, dropped := 0, calls := 0
          inflight := 0, attached := false } }

/-! ## Runs -/

inductive Act
  | writeEnter (t : ℕ) (buf : List UInt8)
  | writeCopy (t : ℕ)
  | writePublish (t : ℕ)
  | writeLeave (t : ℕ)
  /-- The owner detaches, or goes away. -/
  | detachBegin (proc : ℕ)
  | detachEnd (alloc : Bool) (now : UInt64)
  | attachBegin (t proc : ℕ) (req : SndsrvAttach) (now : UInt64)
  | attachEnd (t : ℕ) (registers : Bool)
  /-- A server takes bytes out of its ring. -/
  | consume (n : ℕ)
  /-- A server stores whatever it likes. -/
  | storeHdr (phys : ℕ) (hdr : SndRingHdr)
  | storeData (phys i : ℕ) (b : UInt8)

def consume (s : Machine) (n : ℕ) : Machine :=
  match s.px.ring with
  | none => s
  | some r =>
    let ring := s.rings r.ring_phys
    if s.px.attached ∧ n ≤ (ring.hdr.head - ring.hdr.tail).toNat then
      let hdr := { ring.hdr with tail := ring.hdr.tail + UInt32.ofNat n }
      { s with consumed := s.consumed ++ ring.pending.take n }.setRing r { ring with hdr }
    else s

def step (s : Machine) : Act → Machine
  | .writeEnter t buf =>
    match s.writers t with
    | .idle => pxWriteEnter s t buf
    | _ => s
  | .writeCopy t =>
    match s.writers t with
    | .inside r buf => pxWriteCopy s t r buf
    | _ => s
  | .writePublish t =>
    match s.writers t with
    | .copied r buf head len => pxWritePublish s t r buf head len
    | _ => s
  | .writeLeave t =>
    match s.writers t with
    | .leaving => pxWriteLeave s t
    | _ => s
  | .detachBegin proc => if s.px.owner = some proc then pxDetachBegin s else s
  | .detachEnd alloc now =>
    if s.draining ≠ 0 ∧ s.px.inflight = 0 then pxDetachEnd s alloc now else s
  | .attachBegin t proc req now => attachBegin s t proc req now
  | .attachEnd t registers => attachEnd s t registers
  | .consume n => consume s n
  | .storeHdr phys hdr =>
    let ring := s.rings phys
    { s with rings := Function.update s.rings phys { ring with hdr } }
  | .storeData phys i b =>
    let ring := s.rings phys
    let data := Function.update ring.data i b
    { s with rings := Function.update s.rings phys { ring with data } }

def Access.InBounds (a : Access) : Prop := a.own = true ∧ a.off + a.len ≤ a.ring.ring_len

/-- The ring is attached, or about to be. -/
def Machine.InUse (s : Machine) (r : RingRef) : Prop :=
  s.px.ring = some r ∨ ∃ t proc, s.attachers t = some (r, proc)

def Machine.Uses (s : Machine) (phys : ℕ) : Prop := ∃ r, s.InUse r ∧ r.ring_phys = phys

/-- Nothing accepted is lost or out of order: what was consumed comes first, and the rest is in
the ring, or carried over where there is none. -/
structure InOrder (s : Machine) : Prop where
  refused : s.refused = 0
  queue : ∃ q, s.accepted = s.consumed ++ q ∧
    (∀ r, s.InUse r → q = (s.rings r.ring_phys).pending) ∧
    ((∀ r, ¬ s.InUse r) → q = s.px.carry.getD [])

/-- A server that follows the protocol: it leaves the data and the other counters of a ring in use
alone, and takes bytes by moving `tail`. -/
def Follows (s : Machine) : Act → Prop
  | .storeHdr phys hdr => s.Uses phys →
    hdr.size = (s.rings phys).hdr.size ∧ hdr.head = (s.rings phys).hdr.head ∧
      hdr.tail = (s.rings phys).hdr.tail
  | .storeData phys _ _ => ¬ s.Uses phys
  | _ => True

/-- The size in the header still fits the buffer when a write or a detach reads it, and the
write is no longer than that; no two writes overlap between their copy and their `head`; an
attach begins when no other and no detach is under way, and the card finds a free slot; and the
allocation for the carried audio succeeds. -/
def Kind (s : Machine) : Act → Prop
  | .writeCopy t => ∀ r buf, s.writers t = .inside r buf →
    (s.rings r.ring_phys).hdr.size.toNat + SNDSRV_DATA_OFFSET ≤ r.ring_len ∧
      buf.length ≤ (s.rings r.ring_phys).hdr.size.toNat ∧
      ∀ t' r' buf' head len, s.writers t' ≠ .copied r' buf' head len
  | .detachEnd alloc _ => alloc = true ∧ ∀ r, s.px.ring = some r →
    (s.rings r.ring_phys).hdr.size.toNat + SNDSRV_DATA_OFFSET ≤ r.ring_len
  | .attachBegin _ _ _ _ => s.draining = 0 ∧ ∀ t, s.attachers t = none
  | .attachEnd _ registers => registers = true
  | _ => True

end Xeneva.Sndproxy
