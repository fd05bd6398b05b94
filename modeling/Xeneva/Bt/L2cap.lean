import Xeneva.Base.Run

/-!
# L2CAP reassembly

The adapter hands over ACL packets, each a fragment of an L2CAP PDU. `on_acl` collects the fragments
in one static buffer and calls the handler of the channel when the buffer holds as many bytes as the
PDU's header says. A handler that transmits may have to wait for a credit; it then polls the adapter,
and `on_acl` runs again before the handler has returned.
-/

namespace Xeneva.Bt.L2cap
open Base

/-- The size of `acl_asm`. -/
def ACL_ASM : ℕ := 1024

/-- The size of the buffer that `poll_usb` reads a packet into. -/
def USB_BUF : ℕ := 512

def L2CAP_CID_SIGNAL : ℕ := 0x0001

def get16 (m : ℕ → UInt8) (i : ℕ) : ℕ := (m i).toNat + 256 * (m (i + 1)).toNat

/-- The bytes as a memory that is zero after them. -/
def mem (bs : List UInt8) : ℕ → UInt8 := fun i => bs.getD i 0

/-- The identifiers of the channels that are open; zero for none. -/
structure Chans where
  a2dpSigLoc : ℕ := 0
  a2dpMediaLoc : ℕ := 0
  avrcpLoc : ℕ := 0
  sdpLoc : ℕ := 0
  deriving DecidableEq, Repr

inductive Handler
  | att
  | onSmp
  | onL2capSig
  | onAvdtpSig
  | media
  | avctp
  | onSdpRsp
  | unclaimed
  deriving DecidableEq, Repr

def handlerOf (c : Chans) (cid : ℕ) : Handler :=
  if cid = 0x0004 then .att
  else if cid = 0x0006 then .onSmp
  else if cid = L2CAP_CID_SIGNAL then .onL2capSig
  else if c.a2dpSigLoc ≠ 0 ∧ cid = c.a2dpSigLoc then .onAvdtpSig
  else if c.a2dpMediaLoc ≠ 0 ∧ cid = c.a2dpMediaLoc then .media
  else if c.avrcpLoc ≠ 0 ∧ cid = c.avrcpLoc then .avctp
  else if c.sdpLoc ≠ 0 ∧ cid = c.sdpLoc then .onSdpRsp
  else .unclaimed

/-- Whether the handler transmits, and so may poll the adapter while it runs. -/
def Handler.transmits : Handler → Bool
  | .onSmp | .onL2capSig | .onAvdtpSig => true
  | _ => false

/-- What a handler is called with: the length it is told and the bytes it finds behind the pointer. -/
structure Pdu where
  handler : Handler
  len : ℕ
  payload : List UInt8
  deriving DecidableEq, Repr

/-- A handler that runs; `polled` once input came in while it ran. -/
structure Frame where
  pdu : Pdu
  polled : Bool := false
  deriving DecidableEq, Repr

/-- The state of `on_acl`, and the handlers that run, the innermost first. -/
structure Acl where
  aclAsm : ℕ → UInt8 := fun _ => 0
  aclGot : ℕ := 0
  aclNeed : ℕ := 0
  chans : Chans := {}
  running : List Frame := []

/-- The header of an ACL packet: whether it starts a PDU, and its data as far as it is there. `none`
if the packet is too short or of another connection. -/
def fragment (handle : ℕ) (acl : List UInt8) : Option (Bool × List UInt8) :=
  let hf := get16 (mem acl) 0
  let dlen := get16 (mem acl) 2
  if acl.length < 4 then none
  else if hf % 4096 ≠ handle then none
  else some (hf / 4096 % 4 ≠ 1, (acl.drop 4).take dlen)

/-- `memcpy` to `m + at'`. -/
def memcpy (m : ℕ → UInt8) (at' : ℕ) (data : List UInt8) : ℕ → UInt8 :=
  fun i => if at' ≤ i ∧ i < at' + data.length then data.getD (i - at') 0 else m i

/-- The bytes of the buffer that a handler of a PDU of `len` bytes is given. -/
def payloadOf (m : ℕ → UInt8) (len : ℕ) : List UInt8 :=
  List.ofFn fun i : Fin len => m (4 + i)

/-- The data go to the end of what is there; the first four bytes say how many are needed. -/
def fill (s : Acl) (data : List UInt8) : Acl :=
  let asm := memcpy s.aclAsm s.aclGot data
  let got := s.aclGot + data.length
  { s with
    aclAsm := asm
    aclGot := got
    aclNeed := if s.aclNeed = 0 ∧ got ≥ 4 then (get16 asm 0 + 4) % 2 ^ 16 else s.aclNeed }

/-- What the buffer hands over. -/
def Acl.pdu (s : Acl) : Pdu :=
  let len := get16 s.aclAsm 0
  ⟨handlerOf s.chans (get16 s.aclAsm 2), len, payloadOf s.aclAsm len⟩

/-- What `on_acl` does with the data of a fragment, up to the call of the handler. -/
def assemble (s : Acl) (start : Bool) (data : List UInt8) : Acl × Option Pdu :=
  let s := if start then { s with aclGot := 0, aclNeed := 0 } else s
  -- a fragment that does not fit is dropped, and the rest kept
  if s.aclGot + data.length > ACL_ASM then (s, none)
  else
    let s := fill s data
    if s.aclNeed ≠ 0 ∧ s.aclGot ≥ s.aclNeed then
      ({ s with running := ⟨s.pdu, false⟩ :: s.running }, some s.pdu)
    else (s, none)

/-- `on_acl` up to the call of the handler. -/
def onAcl (handle : ℕ) (s : Acl) (acl : List UInt8) : Acl × Option Pdu :=
  match fragment handle acl with
  | none => (s, none)
  | some (start, data) => assemble s start data

/-- What happens next. The packets come from the UART, or through `poll_usb`. -/
inductive Act
  | uart (acl : List UInt8)
  | usb (acl : List UInt8)
  /-- The innermost handler reads byte `i` of its PDU. -/
  | read (i : ℕ)
  /-- The innermost handler returns. -/
  | ret
  /-- Channels are opened or closed. -/
  | channels (c : Chans)
  deriving DecidableEq

/-- Input comes in when no handler runs, or when the innermost one polls. -/
def Acl.listens (s : Acl) : Bool :=
  match s.running with
  | [] => true
  | f :: _ => f.pdu.handler.transmits

/-- The innermost handler has polled. -/
def Acl.poll (s : Acl) : Acl :=
  match s.running with
  | [] => s
  | f :: fs => { s with running := { f with polled := true } :: fs }

inductive Out
  | none
  | handed (p : Pdu)
  | byte (b : UInt8)
  deriving DecidableEq

def handed : Acl × Option Pdu → Acl × Out
  | (s, some p) => (s, .handed p)
  | (s, none) => (s, .none)

/-- Every handler reads its PDU before it transmits. -/
def step (handle : ℕ) (s : Acl) (a : Act) : Acl × Out :=
  match a with
  | .uart acl => if s.listens then handed (onAcl handle s.poll acl) else (s, .none)
  | .usb acl => if s.listens then handed (onAcl handle s.poll (acl.take USB_BUF)) else (s, .none)
  | .read i =>
    match s.running with
    | ⟨p, false⟩ :: _ => if i < p.len then (s, .byte (s.aclAsm (4 + i))) else (s, .none)
    | _ => (s, .none)
  | .ret =>
    match s.running with
    | [] => (s, .none)
    | _ :: fs => ({ s with running := fs, aclGot := 0, aclNeed := 0 }, .none)
  | .channels c => ({ s with chans := c }, .none)

/-! ## What the peer sends -/

/-- The packet as the peer sent it. -/
def Act.sent : Act → Option (List UInt8)
  | .uart acl | .usb acl => some acl
  | _ => none

/-- The bytes since a start packet: still to be collected, or a complete PDU of at most 1020 bytes. -/
def classify (b : List UInt8) : Option (List UInt8) × Option (List UInt8) :=
  if b.length < 4 then (some b, none)
  else if get16 (mem b) 0 + 4 > ACL_ASM then (none, none)
  else if b.length < get16 (mem b) 0 + 4 then (some b, none)
  else if b.length = get16 (mem b) 0 + 4 then (none, some b)
  else (none, none)

def collect (c : Option (List UInt8)) (start : Bool) (data : List UInt8) :
    Option (List UInt8) × Option (List UInt8) :=
  match if start then some data else c.map (· ++ data) with
  | none => (none, none)
  | some b => classify b

/-- The handler's view of a complete PDU. -/
def pduOf (c : Chans) (b : List UInt8) : Pdu :=
  ⟨handlerOf c (get16 (mem b) 2), get16 (mem b) 0, b.drop 4⟩

/-- The code, with what the peer has sent. `fresh` counts the data that came since the last start
packet and since a handler was called last. -/
structure Watch where
  acl : Acl := {}
  collecting : Option (List UInt8) := none
  fresh : ℕ := 0

/-- The fragment of the connection that comes in at this step. -/
def Watch.incoming (handle : ℕ) (w : Watch) (a : Act) : Option (Bool × List UInt8) :=
  match a.sent with
  | some acl => if w.acl.listens then fragment handle acl else none
  | none => none

/-- What is collected once the step's fragment is in, and the PDU that it completes. -/
def Watch.collected (handle : ℕ) (w : Watch) (a : Act) :
    Option (List UInt8) × Option (List UInt8) :=
  match w.incoming handle a with
  | some (start, data) => collect w.collecting start data
  | none => (w.collecting, none)

/-- The data that came since the last start packet and the last call, this step's included. -/
def Watch.received (handle : ℕ) (w : Watch) (a : Act) : ℕ :=
  match w.incoming handle a with
  | some (start, data) => (if start then 0 else w.fresh) + data.length
  | none => w.fresh

def watch (handle : ℕ) (w : Watch) (a : Act) : Watch where
  acl := (step handle w.acl a).1
  collecting := (w.collected handle a).1
  fresh :=
    match (step handle w.acl a).2 with
    | .handed _ => 0
    | _ => w.received handle a

/-- A handler is told of no more bytes than came in, none of them twice; a PDU is handed to its
handler by its last fragment, and by none before; and the handler finds the PDU's bytes. -/
structure Intact (handle : ℕ) (w : Watch) (a : Act) : Prop where
  bounded : ∀ p, (step handle w.acl a).2 = .handed p → p.len + 4 ≤ w.received handle a
  complete : ∀ b, (w.collected handle a).2 = some b →
    (step handle w.acl a).2 = .handed (pduOf w.acl.chans b)
  incomplete : ∀ b, w.incoming handle a ≠ none → (w.collected handle a).1 = some b →
    ∀ p, (step handle w.acl a).2 ≠ .handed p
  unaltered : ∀ i b, a = .read i → (step handle w.acl a).2 = .byte b →
    ∃ f fs, w.acl.running = f :: fs ∧ f.pdu.payload[i]? = some b

/-- The packet's data is in the buffer that `poll_usb` reads into. -/
def Act.Fits (data : List UInt8) : Act → Prop
  | .usb _ => data.length + 4 ≤ USB_BUF
  | _ => True

instance (data : List UInt8) : ∀ a, Decidable (Act.Fits data a)
  | .usb _ => inferInstanceAs (Decidable (_ ≤ _))
  | .uart _ | .read _ | .ret | .channels _ => inferInstanceAs (Decidable True)

/-- The buffer is still to be filled when the fragment goes to it, and the header says no length
that wraps to a need of one to three. -/
def FragmentOk (s : Acl) (start : Bool) (data : List UInt8) : Prop :=
  let old := if start then 0 else s.aclGot
  let need := if start then 0 else s.aclNeed
  old + data.length ≤ ACL_ASM → (need = 0 ∨ old < need) ∧
    (need = 0 → 4 ≤ old + data.length → get16 (memcpy s.aclAsm old data) 0 < 2 ^ 16 - 3)

instance (s : Acl) (start : Bool) (data : List UInt8) : Decidable (FragmentOk s start data) :=
  inferInstanceAs (Decidable (_ → _ ∧ _))

/-- A packet from USB fits its buffer; a header says no length that wraps to a need of one to three;
and no continuation comes in while a handler's PDU is all that the buffer holds. When a handler
returns, no PDU is partly in. -/
def StepOk (handle : ℕ) (w : Watch) (a : Act) : Prop :=
  (∀ f ∈ w.incoming handle a, a.Fits f.2 ∧ FragmentOk w.acl f.1 f.2) ∧
    (a = .ret → w.acl.running ≠ [] → w.acl.aclGot ≠ 0 →
      w.acl.aclNeed ≠ 0 ∧ w.acl.aclGot ≥ w.acl.aclNeed)

instance (handle : ℕ) (w : Watch) (a : Act) : Decidable (StepOk handle w a) :=
  inferInstanceAs (Decidable (_ ∧ _))

end Xeneva.Bt.L2cap
