import Xeneva.Base.Feed

/-!
# H4 deframing

The Bluetooth adapter sends packets as a stream of bytes: the kind of the packet, a header whose
length depends on the kind, and as many bytes as the header says. `buf` is the part of the buffer
that is in use, so its length is the counter `got`.
-/

namespace Xeneva.Bt
open Base.Feed

def H4_CMD : UInt8 := 0x01
def H4_ACL : UInt8 := 0x02
def H4_SCO : UInt8 := 0x03
def H4_EVT : UInt8 := 0x04
def H4_ISO : UInt8 := 0x05

def H4_BUF : ℕ := 1024

structure BtH4 where
  kind : UInt8 := 0
  need : ℕ := 0
  buf : List UInt8 := []
  deriving DecidableEq, Repr

/-- The length of a packet of the kind; zero where the header is not there yet. -/
def payloadLen (kind : UInt8) (hdr : List UInt8) : ℕ :=
  let at' (i : ℕ) : ℕ := (hdr.getD i 0).toNat
  if kind = H4_CMD ∧ hdr.length ≥ 3 then 3 + at' 2
  else if kind = H4_SCO ∧ hdr.length ≥ 3 then 3 + at' 2
  else if kind = H4_EVT ∧ hdr.length ≥ 2 then 2 + at' 1
  else if (kind = H4_ACL ∨ kind = H4_ISO) ∧ hdr.length ≥ 4 then 4 + (at' 2 + 256 * at' 3)
  else 0

def h4Known (b : UInt8) : Bool :=
  b = H4_CMD ∨ b = H4_ACL ∨ b = H4_SCO ∨ b = H4_EVT ∨ b = H4_ISO

/-- One turn of the loop of `bt_h4_feed`, with the packet if the loop ends there. -/
def h4Byte (cap : ℕ) (h : BtH4) (b : UInt8) : BtH4 × Option (UInt8 × List UInt8) :=
  if h.kind = 0 then
    if ¬h4Known b then (h, none) else ({ kind := b }, none)
  else
    let h := if h.buf.length < H4_BUF then { h with buf := h.buf ++ [b] } else h
    let pl := payloadLen h.kind h.buf
    if h.need = 0 ∧ pl = 0 then (h, none)
    else if h.need = 0 ∧ pl > H4_BUF then ({}, none)
    else
      let h := if h.need = 0 then { h with need := pl } else h
      if h.buf.length ≥ h.need then
        -- a packet that the caller has no room for is dropped whole
        if h.need ≤ cap then ({}, some (h.kind, h.buf)) else ({}, none)
      else (h, none)

/-- The caller's `out` has `cap` bytes. The bytes after the first packet are not looked at. -/
def btH4Feed (cap : ℕ) (h : BtH4) (bytes : List UInt8) : BtH4 × Option (UInt8 × List UInt8) :=
  call (h4Byte cap) h bytes

def btH4Wrap (kind : UInt8) (payload : List UInt8) (cap : ℕ) : Option (List UInt8) :=
  if payload.length + 1 > cap then none else some (kind :: payload)

/-- A packet with a header that tells its length. -/
def ValidPacket (kind : UInt8) (payload : List UInt8) : Prop :=
  h4Known kind ∧ payload ≠ [] ∧ payloadLen kind payload = payload.length

instance (kind : UInt8) (payload : List UInt8) : Decidable (ValidPacket kind payload) :=
  inferInstanceAs (Decidable (_ ∧ _ ∧ _))

/-- A packet, or bytes that start with no kind of packet. -/
inductive Item
  | packet (kind : UInt8) (payload : List UInt8)
  | unknown (bytes : List UInt8)
  deriving DecidableEq

def Item.bytes : Item → List UInt8
  | .packet kind payload => kind :: payload
  | .unknown bytes => bytes

def Item.Sent : Item → Prop
  | .packet kind payload => ValidPacket kind payload
  | .unknown bytes => ∃ b, bytes.head? = some b ∧ ¬h4Known b

/-- The packet that a caller with room for `cap` bytes is to get. -/
def Item.reported (cap : ℕ) : Item → Option (UInt8 × List UInt8)
  | .packet kind payload => if payload.length ≤ cap then some (kind, payload) else none
  | .unknown _ => none

def stream (items : List Item) : List UInt8 := items.flatMap Item.bytes

/-- What feeding the chunks of a stream is to yield. -/
def reports (cap : ℕ) (items : List Item) : List (UInt8 × List UInt8) :=
  items.filterMap (Item.reported cap)

/-- What it does yield. -/
def received (cap : ℕ) (chunks : List (List UInt8)) : List (UInt8 × List UInt8) :=
  (calls (h4Byte cap) {} chunks).2

/-- A packet that fits the buffer, or bytes none of which is a kind of packet. -/
def Item.InSync : Item → Prop
  | .packet _ payload => payload.length ≤ H4_BUF
  | .unknown bytes => ∀ b ∈ bytes, ¬h4Known b

/-- No packet that is to be reported ends inside a chunk, with bytes of the chunk left. -/
def EndsChunks (cap : ℕ) (items : List Item) (chunks : List (List UInt8)) : Prop :=
  ∀ pre c post, chunks = pre ++ c :: post → ∀ its i rest, items = its ++ i :: rest →
    i.reported cap ≠ none → pre.flatten.length < (stream (its ++ [i])).length →
      pre.flatten.length + c.length ≤ (stream (its ++ [i])).length

end Xeneva.Bt
