import Xeneva.Base.Run
import Xeneva.Base.Ring
import Xeneva.Base.Slots

/-!
# The network proxy

Frames go through two rings of slots in memory that a server process shares and may change at any
time. Several threads of the kernel send and poll at once, so each function is a number of steps.
-/

namespace Xeneva.Netproxy
open Base

def NETSRV_RING_MAGIC : ℕ := 0x3154454E
def NETSRV_SLOTS : ℕ := 32
def NETSRV_SLOT_SIZE : ℕ := 2048
def NETSRV_SLOT_HDR : ℕ := 8
def NETSRV_MAX_FRAME : ℕ := NETSRV_SLOT_SIZE - NETSRV_SLOT_HDR
def NETSRV_TX_OFFSET : ℕ := 4096
def NETSRV_RX_OFFSET : ℕ := NETSRV_TX_OFFSET + NETSRV_SLOTS * NETSRV_SLOT_SIZE
def NETSRV_RING_BYTES : ℕ := NETSRV_RX_OFFSET + NETSRV_SLOTS * NETSRV_SLOT_SIZE
def sizeofHdr : ℕ := 48

/-- The counters run freely. -/
structure NetRingHdr where
  magic : ℕ := NETSRV_RING_MAGIC
  slots : ℕ := NETSRV_SLOTS
  slot_size : ℕ := NETSRV_SLOT_SIZE
  tx_head : BitVec 32 := 0
  tx_tail : BitVec 32 := 0
  rx_head : BitVec 32 := 0
  rx_tail : BitVec 32 := 0
  tx_dropped : BitVec 32 := 0
  rx_dropped : BitVec 32 := 0

/-- A frame in a slot, after its length. -/
structure Slot where
  len : BitVec 32 := 0
  data : ℕ → UInt8 := fun _ => 0

/-- A ring in memory. -/
structure NetRing where
  hdr : NetRingHdr := {}
  tx : ℕ → Slot := fun _ => {}
  rx : ℕ → Slot := fun _ => {}

abbrev Frame := List UInt8

def Slot.frame (slot : Slot) : Frame := memread slot.data 0 slot.len.toNat

/-- What the kernel has queued and the server has not taken. -/
def NetRing.txQueue (r : NetRing) : List Frame :=
  (slotQueue r.tx NETSRV_SLOTS r.hdr.tx_tail r.hdr.tx_head).map Slot.frame

/-- What the server has queued and the kernel has not taken. -/
def NetRing.rxQueue (r : NetRing) : List Frame :=
  (slotQueue r.rx NETSRV_SLOTS r.hdr.rx_tail r.hdr.rx_head).map Slot.frame

/-- The DMA buffer of an attachment; `gen` tells attachments apart. -/
structure RingRef where
  ring_phys : ℕ
  ring_len : ℕ
  gen : ℕ
  deriving DecidableEq

/-- Where a thread is in `np_write`: `inflight` was read, counted in, the frame is in its slot,
to be counted out, `inflight` was read again. -/
inductive Writer
  | idle
  | counting (buffer : Frame) (n : ℤ)
  | inside (buffer : Frame)
  | filled (h : Option RingRef) (head : BitVec 32) (frame : Frame)
  | leaving
  | uncounting (n : ℤ)

/-- Where a thread is in `np_rxpoll`: the first test was passed, at the test of the loop, in its
body, the frame or a bad length was read, the frame is handed on, the loop was left. -/
inductive Poller
  | idle
  | checked
  | loop (h : Option RingRef) (budget : ℕ)
  | body (h : Option RingRef) (budget : ℕ)
  | copied (h : Option RingRef) (budget : ℕ) (tail : BitVec 32) (len : ℕ)
  | bad (h : Option RingRef) (budget : ℕ) (tail : BitVec 32)
  | handle (h : Option RingRef) (budget len : ℕ)
  | exiting

/-- `len` bytes from `off` on; `own` says that the buffer was the attached one. -/
structure Access where
  ring : Option RingRef
  own : Bool
  off : ℕ
  len : ℕ

/-- The proxy, its callers, and the memory of the servers. The last fields are the frames that went
in and out at each end since the last attachment. -/
structure Machine where
  attached : Bool := false
  inflight : ℤ := 0
  owner : Option ℕ := none
  hdr : Option RingRef := none
  nic : Bool := false
  in_poll : Bool := false
  rxcopy : ℕ → UInt8 := fun _ => 0
  tx_frames : ℕ := 0
  rx_frames : ℕ := 0
  tx_dropped : ℕ := 0
  rx_bad : ℕ := 0
  rings : ℕ → NetRing
  writers : ℕ → Writer := fun _ => .idle
  pollers : ℕ → Poller := fun _ => .idle
  attachers : ℕ → Option (RingRef × ℕ) := fun _ => none
  draining : ℕ := 0
  gens : ℕ := 0
  accesses : List Access := []
  queued : List Frame := []
  taken : List Frame := []
  published : List Frame := []
  delivered : List Frame := []

def Machine.ring (s : Machine) (h : Option RingRef) : NetRing :=
  match h with
  | none => {}
  | some r => s.rings r.ring_phys

/-- A store through a null pointer changes no ring. -/
def Machine.setRing (s : Machine) (h : Option RingRef) (ring : NetRing) : Machine :=
  { s with rings := match h with
    | none => s.rings
    | some r => Function.update s.rings r.ring_phys ring }

def Machine.setWriter (s : Machine) (t : ℕ) (w : Writer) : Machine :=
  { s with writers := Function.update s.writers t w }

def Machine.setPoller (s : Machine) (t : ℕ) (p : Poller) : Machine :=
  { s with pollers := Function.update s.pollers t p }

def Machine.touch (s : Machine) (h : Option RingRef) (off len : ℕ) : Machine :=
  { s with accesses := ⟨h, h.isSome && s.hdr == h, off, len⟩ :: s.accesses }

/-- The slot of a counter, `head & (NETSRV_SLOTS - 1)`. -/
def slotOf (i : BitVec 32) : ℕ := (i &&& 31#32).toNat

/-- The first test, and the count of writers is read. -/
def npWriteEnter (s : Machine) (t : ℕ) (buffer : Frame) : Machine :=
  if !s.attached ∨ buffer = [] then s else s.setWriter t (.counting buffer s.inflight)

/-- The frame is copied into the slot of `tx_head`, or dropped if the ring is full. -/
def npWriteFill (s : Machine) (t : ℕ) (buffer : Frame) : Machine :=
  if !s.attached then s.setWriter t .leaving
  else
    let h := s.hdr
    let frame := buffer.take NETSRV_MAX_FRAME
    let ring := s.ring h
    let head := ring.hdr.tx_head
    let s := s.touch h 0 sizeofHdr
    if (head - ring.hdr.tx_tail).toNat ≥ NETSRV_SLOTS then
      { s with tx_dropped := s.tx_dropped + 1 }.setRing h
        { ring with hdr := { ring.hdr with tx_dropped := ring.hdr.tx_dropped + 1 } }
        |>.setWriter t .leaving
    else
      let i := slotOf head
      let slot : Slot := ⟨BitVec.ofNat 32 frame.length, memcpy (ring.tx i).data 0 frame⟩
      (s.touch h (NETSRV_TX_OFFSET + i * NETSRV_SLOT_SIZE) (NETSRV_SLOT_HDR + frame.length)).setRing
        h { ring with tx := Function.update ring.tx i slot } |>.setWriter t (.filled h head buffer)

/-- `tx_head` is stored. -/
def npWritePublish (s : Machine) (t : ℕ) (h : Option RingRef) (head : BitVec 32) (frame : Frame) :
    Machine :=
  let ring := s.ring h
  { (s.touch h 0 sizeofHdr).setRing h { ring with hdr := { ring.hdr with tx_head := head + 1 } } with
    tx_frames := s.tx_frames + 1
    queued := s.queued ++ [frame] }.setWriter t .leaving

def npWrite (s : Machine) (t : ℕ) (buffer : Frame) : Machine :=
  match s.writers t with
  | .idle => npWriteEnter s t buffer
  | .counting buffer n => { s with inflight := n + 1 }.setWriter t (.inside buffer)
  | .inside buffer => npWriteFill s t buffer
  | .filled h head frame => npWritePublish s t h head frame
  | .leaving => s.setWriter t (.uncounting s.inflight)
  | .uncounting n => { s with inflight := n - 1 }.setWriter t .idle

/-- The body of the loop up to the copy of the frame. -/
def npRxRead (s : Machine) (t : ℕ) (h : Option RingRef) (budget : ℕ) : Machine :=
  let ring := s.ring h
  let tail := ring.hdr.rx_tail
  let s := s.touch h 0 sizeofHdr
  if tail = ring.hdr.rx_head then s.setPoller t .exiting
  else
    let i := slotOf tail
    let off := NETSRV_RX_OFFSET + i * NETSRV_SLOT_SIZE
    let len := (ring.rx i).len.toNat
    let s := s.touch h off 4
    if 14 ≤ len ∧ len ≤ NETSRV_MAX_FRAME then
      { s.touch h (off + NETSRV_SLOT_HDR) len with
        rxcopy := memcpy s.rxcopy 0 (memread (ring.rx i).data 0 len) }.setPoller t
          (.copied h budget tail len)
    else { s with rx_bad := s.rx_bad + 1 }.setPoller t (.bad h budget tail)

/-- The slot is given back. -/
def npRxGive (s : Machine) (h : Option RingRef) (tail : BitVec 32) : Machine :=
  let ring := s.ring h
  (s.touch h 0 sizeofHdr).setRing h { ring with hdr := { ring.hdr with rx_tail := tail + 1 } }

def npRxpoll (s : Machine) (t : ℕ) : Machine :=
  match s.pollers t with
  | .idle => if s.in_poll ∨ !s.attached ∨ !s.nic then s else s.setPoller t .checked
  | .checked => { s with in_poll := true }.setPoller t (.loop s.hdr NETSRV_SLOTS)
  | .loop h budget =>
    if s.attached ∧ budget > 0 then s.setPoller t (.body h (budget - 1)) else s.setPoller t .exiting
  | .body h budget => npRxRead s t h budget
  | .copied h budget tail len =>
    { npRxGive s h tail with rx_frames := s.rx_frames + 1 }.setPoller t (.handle h budget len)
  | .bad h budget tail => (npRxGive s h tail).setPoller t (.loop h budget)
  | .handle h budget len =>
    { s with delivered := s.delivered ++ [memread s.rxcopy 0 len] }.setPoller t (.loop h budget)
  | .exiting => { s with in_poll := false }.setPoller t .idle

/-- An attach request, with what its checks find: that the caller may attach, and that the buffer is
one of its own. -/
structure NetsrvAttach where
  ring_phys : ℕ
  ring_len : ℕ
  allowed : Bool
  owns : Bool

/-- The request is checked, and the counters of the ring are reset. -/
def attachBegin (s : Machine) (t proc : ℕ) (req : NetsrvAttach) : Machine :=
  if !req.allowed then s
  else if s.attached then s
  else if req.ring_len < NETSRV_RING_BYTES ∨ req.ring_phys &&& 0xFFF ≠ 0 then s
  else if !req.owns then s
  else
    let ring := s.rings req.ring_phys
    if ring.hdr.magic ≠ NETSRV_RING_MAGIC ∨ ring.hdr.slots ≠ NETSRV_SLOTS ∨
        ring.hdr.slot_size ≠ NETSRV_SLOT_SIZE then s
    else
      let hdr := { ring.hdr with
        tx_head := 0, tx_tail := 0, rx_head := 0, rx_tail := 0, tx_dropped := 0, rx_dropped := 0 }
      { s with
        rings := Function.update s.rings req.ring_phys { ring with hdr }
        attachers := Function.update s.attachers t
          (some (⟨req.ring_phys, req.ring_len, s.gens⟩, proc))
        gens := s.gens + 1
        queued := []
        taken := []
        published := []
        delivered := [] }

/-- The ring is published. -/
def attachEnd (s : Machine) (t : ℕ) : Machine :=
  match s.attachers t with
  | none => s
  | some (r, proc) =>
    { s with
      attachers := Function.update s.attachers t none
      hdr := some r
      owner := some proc
      inflight := 0
      nic := true
      attached := true }

/-- Writers and pollers see `attached`. -/
def npDetachBegin (s : Machine) : Machine :=
  if !s.attached then s
  else { s with attached := false, nic := false, draining := s.draining + 1 }

/-- The ring is given up, and its memory may be freed. -/
def npDetachEnd (s : Machine) : Machine :=
  { s with hdr := none, owner := none, draining := s.draining - 1 }

/-- A server fills the slot behind its queue, makes it part of the queue, and takes a frame that the
kernel has queued; or it stores whatever it likes. -/
inductive Act
  | write (t : ℕ) (buffer : Frame)
  | poll (t : ℕ)
  | attachBegin (t proc : ℕ) (req : NetsrvAttach)
  | attachEnd (t : ℕ)
  | detachBegin (proc : ℕ)
  | detachEnd (timeout : Bool)
  | serverFill (frame : Frame)
  | serverPublish
  | serverTake
  | store (phys : ℕ) (ring : NetRing)

/-- `rx_drain` of the server: the frame is copied to the slot of `rx_head`. -/
def serverFill (s : Machine) (r : RingRef) (frame : Frame) : Machine :=
  let ring := s.rings r.ring_phys
  if 14 ≤ frame.length ∧ frame.length ≤ NETSRV_MAX_FRAME ∧
      (ring.hdr.rx_head - ring.hdr.rx_tail).toNat < NETSRV_SLOTS then
    let i := slotOf ring.hdr.rx_head
    let slot : Slot := ⟨BitVec.ofNat 32 frame.length, memcpy (ring.rx i).data 0 frame⟩
    s.setRing (some r) { ring with rx := Function.update ring.rx i slot }
  else s

/-- `rx_head` is stored, if there is room. -/
def serverPublish (s : Machine) (r : RingRef) : Machine :=
  let ring := s.rings r.ring_phys
  let slot := ring.rx (slotOf ring.hdr.rx_head)
  if 14 ≤ slot.len.toNat ∧ slot.len.toNat ≤ NETSRV_MAX_FRAME ∧
      (ring.hdr.rx_head - ring.hdr.rx_tail).toNat < NETSRV_SLOTS then
    { s.setRing (some r) { ring with hdr := { ring.hdr with rx_head := ring.hdr.rx_head + 1 } } with
      published := s.published ++ [slot.frame] }
  else s

/-- `tx_drain` of the server: the frame at `tx_tail` goes onto the wire. -/
def serverTake (s : Machine) (r : RingRef) : Machine :=
  let ring := s.rings r.ring_phys
  if ring.hdr.tx_tail = ring.hdr.tx_head then s
  else
    let slot := ring.tx (slotOf ring.hdr.tx_tail)
    { s.setRing (some r) { ring with hdr := { ring.hdr with tx_tail := ring.hdr.tx_tail + 1 } } with
      taken := s.taken ++ [slot.frame] }

/-- What the server of the attached ring does. -/
def Machine.server (s : Machine) (f : RingRef → Machine) : Machine :=
  match s.hdr with
  | none => s
  | some r => if s.attached then f r else s

def step (s : Machine) : Act → Machine
  | .write t buffer => npWrite s t buffer
  | .poll t => npRxpoll s t
  | .attachBegin t proc req => attachBegin s t proc req
  | .attachEnd t => attachEnd s t
  | .detachBegin proc => if s.owner = some proc then npDetachBegin s else s
  | .detachEnd timeout =>
    if s.draining ≠ 0 ∧ (s.inflight ≤ 0 ∨ timeout) then npDetachEnd s else s
  | .serverFill frame => s.server fun r => serverFill s r frame
  | .serverPublish => s.server fun r => serverPublish s r
  | .serverTake => s.server fun r => serverTake s r
  | .store phys ring => { s with rings := Function.update s.rings phys ring }

end Xeneva.Netproxy
