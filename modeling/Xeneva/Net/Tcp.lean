import Xeneva.Base.Run
import Xeneva.Net.CircBuf

/-!
# TCP connections

One socket with its control block, the segments its peer sends it and the calls of its
owner. `ready` says whether `TCPSendSegment` gets as far as sending: it needs a network
card, a resolved next hop and memory.
-/

namespace Xeneva.Net
open Base

inductive TCPState
  | closed | listen | synSent | synReceived | established | finWait1 | finWait2
  | closeWait | closing | lastAck | timeWait
  deriving DecidableEq, Repr

inductive SockState
  | connectionRst | waitingForConnection | connected | closed
  deriving DecidableEq, Repr

def TCP_FLAGS_FIN : BitVec 16 := 1
def TCP_FLAGS_SYN : BitVec 16 := 2
def TCP_FLAGS_RST : BitVec 16 := 4
def TCP_FLAGS_PSH : BitVec 16 := 8
def TCP_FLAGS_ACK : BitVec 16 := 16

def TCP_RX_BUF_SZ : ℕ := 65536
def TCP_DEFAULT_WIN_SZ : BitVec 16 := 65535
def TCP_MSS : ℕ := 1460

structure TCPControlBlock where
  state : TCPState
  fin_recvd : Bool
  iss : BitVec 32
  irs : BitVec 32
  snd_una : BitVec 32
  snd_nxt : BitVec 32
  rcv_nxt : BitVec 32
  snd_wnd : BitVec 16
  mss : ℕ
  rxbuf : CircBuffer
  syn_tries : ℕ

structure TCPHeader where
  sequenceNum : BitVec 32
  ackNum : BitVec 32
  flags : BitVec 16
  window : BitVec 16
  deriving DecidableEq, Repr

/-- A socket and the headers of the segments it has sent, the latest first. -/
structure AuSocket where
  pcb : TCPControlBlock
  sockState : SockState
  sent : List TCPHeader

def has (flags flag : BitVec 16) : Bool := flags &&& flag ≠ 0

def tcpAllocPCB : TCPControlBlock where
  state := .closed
  fin_recvd := false
  iss := 0
  irs := 0
  snd_una := 0
  snd_nxt := 0
  rcv_nxt := 0
  snd_wnd := TCP_DEFAULT_WIN_SZ
  mss := TCP_MSS
  rxbuf := auCircBufInitialise (fun _ => 0) TCP_RX_BUF_SZ
  syn_tries := 0

def tcpAllocSocket : AuSocket := { pcb := tcpAllocPCB, sockState := .closed, sent := [] }

/-- The window field has 16 bits, so an empty buffer does not offer all of its room. -/
def tcpWindowOf (s : AuSocket) : BitVec 16 :=
  let used := auCircBufSize s.pcb.rxbuf
  if used ≥ TCP_RX_BUF_SZ then 0
  else if TCP_RX_BUF_SZ - used > 65535 then 65535
  else BitVec.ofNat 16 (TCP_RX_BUF_SZ - used)

def tcpSendSegment (ready : Bool) (s : AuSocket) (flags : BitVec 16) (payloadLen : ℕ) :
    AuSocket × Bool :=
  if ¬ ready then (s, false)
  else
    let seq := s.pcb.snd_nxt
    let header : TCPHeader :=
      { sequenceNum := seq, ackNum := s.pcb.rcv_nxt, flags, window := tcpWindowOf s }
    let snd_nxt :=
      if has flags TCP_FLAGS_SYN then seq + 1
      else
        let next := seq + BitVec.ofNat 32 payloadLen
        if has flags TCP_FLAGS_FIN then next + 1 else next
    ({ s with pcb := { s.pcb with snd_nxt }, sent := header :: s.sent }, true)

def tcpSendAck (ready : Bool) (s : AuSocket) : AuSocket :=
  (tcpSendSegment ready s TCP_FLAGS_ACK 0).1

/-- The loop of `AuTCPSend`; `ready` is asked for each segment. -/
def auTCPSendLoop (ready : ℕ → Bool) : ℕ → AuSocket → ℕ → AuSocket
  | 0, s, _ => s
  | n + 1, s, remaining =>
    if remaining = 0 then s
    else
      let chunk := if remaining > s.pcb.mss then s.pcb.mss else remaining
      let (s', sent) := tcpSendSegment (ready n) s (TCP_FLAGS_ACK ||| TCP_FLAGS_PSH) chunk
      if ¬ sent then s' else auTCPSendLoop ready n s' (remaining - chunk)

def auTCPSend (ready : ℕ → Bool) (s : AuSocket) (len : ℕ) : AuSocket :=
  if s.pcb.state ≠ .established ∧ s.pcb.state ≠ .closeWait then s
  else auTCPSendLoop ready len s len

/-- A SYN sent again, with the sequence number of the first. -/
def tcpResendSyn (ready : Bool) (s : AuSocket) : AuSocket × Bool :=
  tcpSendSegment ready { s with pcb := { s.pcb with snd_nxt := s.pcb.iss } } TCP_FLAGS_SYN 0

/-- One poll of a handshake; `late` says whether the deadline of the last SYN is over. -/
def auTCPConnectPoll (late ready : Bool) (s : AuSocket) : AuSocket :=
  if s.sockState = .connectionRst ∨ s.pcb.state = .closed then s
  else if s.pcb.state = .established then { s with sockState := .connected }
  else if s.pcb.state ≠ .synSent then s
  else if ¬ late then s
  else if s.pcb.syn_tries ≥ 3 then { s with pcb := { s.pcb with state := .closed } }
  else
    let s := (tcpResendSyn ready s).1
    { s with pcb := { s.pcb with syn_tries := s.pcb.syn_tries + 1 } }

/-- One turn of the loop in which `AuTCPConnect` waits, its `attempts`-th SYN sent. -/
def auTCPConnectWait (late ready : Bool) (attempts : ℕ) (s : AuSocket) : AuSocket :=
  if s.pcb.state ≠ .synSent ∨ s.sockState = .connectionRst ∨ ¬ late then s
  else if attempts = 3 then { s with pcb := { s.pcb with state := .closed } }
  else (tcpResendSyn ready s).1

/-- `AuTCPConnect` starts a handshake unless one is done, or under way without blocking. -/
def startsHandshake (nonblock : Bool) (s : AuSocket) : Bool :=
  ¬ (s.pcb.state = .established ∨ (s.pcb.state = .synSent ∧ nonblock))

/-- The handshake `AuTCPConnect` starts, up to its first wait; `rand` is its draw. -/
def auTCPConnect (ready : Bool) (rand : BitVec 32) (s : AuSocket) : AuSocket :=
  let iss := if rand = 0 then 1 else rand
  let pcb := { s.pcb with iss, snd_una := iss, snd_nxt := iss, rcv_nxt := 0, state := .synSent }
  let s := (tcpSendSegment ready { s with pcb, sockState := .waitingForConnection }
    TCP_FLAGS_SYN 0).1
  { s with pcb := { s.pcb with syn_tries := 0 } }

/-- The socket a listener makes for a SYN. -/
def tcpHandleListenSyn (ready : Bool) (rand : BitVec 32) (tcp : TCPHeader) : AuSocket :=
  let iss := if rand = 0 then 1 else rand
  let child := tcpAllocSocket
  let pcb := { child.pcb with
    irs := tcp.sequenceNum
    rcv_nxt := tcp.sequenceNum + 1
    iss
    snd_una := iss
    snd_nxt := iss
    snd_wnd := tcp.window
    state := .synReceived }
  (tcpSendSegment ready { child with pcb, sockState := .waitingForConnection }
    (TCP_FLAGS_SYN ||| TCP_FLAGS_ACK) 0).1

def auTCPListen (s : AuSocket) : AuSocket :=
  { s with pcb := { s.pcb with state := .listen }, sockState := .connected }

/-- A listener also resets its children, which are sockets of their own. -/
def auTCPClose (ready : Bool) (s : AuSocket) : AuSocket :=
  match s.pcb.state with
  | .established | .synReceived =>
    let s := (tcpSendSegment ready s (TCP_FLAGS_FIN ||| TCP_FLAGS_ACK) 0).1
    { s with pcb := { s.pcb with state := .finWait1 } }
  | .closeWait =>
    let s := (tcpSendSegment ready s (TCP_FLAGS_FIN ||| TCP_FLAGS_ACK) 0).1
    { s with pcb := { s.pcb with state := .lastAck } }
  | .listen => { s with pcb := { s.pcb with state := .closed } }
  | .closed | .timeWait => s
  | _ =>
    let s := (tcpSendSegment ready s (TCP_FLAGS_RST ||| TCP_FLAGS_ACK) 0).1
    { s with pcb := { s.pcb with state := .closed } }

/-! ## Receiving -/

/-- What an acknowledgement does to the state of the connection. -/
def tcpHandleAck (s : AuSocket) (tcp : TCPHeader) : AuSocket :=
  let pcb := s.pcb
  let ack := tcp.ackNum
  let snd_una :=
    if 0 < (ack - pcb.snd_una).toInt ∧ 0 ≤ (pcb.snd_nxt - ack).toInt then ack else pcb.snd_una
  let (state, sockState) :=
    if pcb.state = .synReceived ∧ ack = pcb.snd_nxt then (.established, .connected)
    else (pcb.state, s.sockState)
  let state := if state = .finWait1 ∧ ack = pcb.snd_nxt then .finWait2 else state
  let state := if state = .lastAck ∧ ack = pcb.snd_nxt then .closed else state
  let state := if state = .closing ∧ ack = pcb.snd_nxt then .timeWait else state
  { s with pcb := { pcb with snd_una, snd_wnd := tcp.window, state }, sockState }

/-- The state after the peer's FIN. -/
def finState : TCPState → TCPState
  | .established => .closeWait
  | .finWait1 => .closing
  | .finWait2 => .timeWait
  | s => s

/-- The payload part: the new socket, whether an acknowledgement is due, and whether the
segment is done with. A payload that does not fit is refused whole. -/
def tcpHandlePayload (s : AuSocket) (tcp : TCPHeader) (payload : List UInt8) :
    AuSocket × Bool × Bool :=
  if payload.length = 0 then (s, false, false)
  else if tcp.sequenceNum ≠ s.pcb.rcv_nxt then (s, true, true)
  else if (tcpWindowOf s).toNat < payload.length then (s, true, false)
  else
    let (rxbuf, wrote) := auCircBufWrite s.pcb.rxbuf payload
    if wrote > 0 then
      ({ s with pcb := { s.pcb with rxbuf, rcv_nxt := s.pcb.rcv_nxt + BitVec.ofNat 32 wrote } },
        true, false)
    else ({ s with pcb := { s.pcb with rxbuf } }, false, false)

def tcpHandleFin (s : AuSocket) (tcp : TCPHeader) (payloadLen : ℕ) : AuSocket × Bool :=
  if has tcp.flags TCP_FLAGS_FIN ∧
      (tcp.sequenceNum + BitVec.ofNat 32 payloadLen = s.pcb.rcv_nxt ∨
        tcp.sequenceNum = s.pcb.rcv_nxt) then
    ({ s with pcb := { s.pcb with
        rcv_nxt := s.pcb.rcv_nxt + 1
        fin_recvd := true
        state := finState s.pcb.state } }, true)
  else (s, false)

def tcpHandleEstablished (ready : Bool) (s : AuSocket) (tcp : TCPHeader) (payload : List UInt8) :
    AuSocket :=
  let s := if has tcp.flags TCP_FLAGS_ACK then tcpHandleAck s tcp else s
  if s.pcb.state = .synSent then s
  else
    let (s, needAck, done) := tcpHandlePayload s tcp payload
    if done then tcpSendAck ready s
    else
      let (s, finAck) := tcpHandleFin s tcp payload.length
      if needAck ∨ finAck then tcpSendAck ready s else s

/-- The answer to a SYN with an acknowledgement, or without, while the own SYN is out. The
second is the one branch that the handler for IPv6 lacks. -/
def tcpHandleSynSent (ipv6 ready : Bool) (s : AuSocket) (tcp : TCPHeader) : AuSocket :=
  if has tcp.flags TCP_FLAGS_SYN ∧ has tcp.flags TCP_FLAGS_ACK then
    if tcp.ackNum ≠ s.pcb.iss + 1 then s
    else tcpSendAck ready { s with
      pcb := { s.pcb with
        irs := tcp.sequenceNum
        rcv_nxt := tcp.sequenceNum + 1
        snd_una := tcp.ackNum
        snd_wnd := tcp.window
        state := .established }
      sockState := .connected }
  else if has tcp.flags TCP_FLAGS_SYN ∧ ¬ ipv6 then
    (tcpSendSegment ready { s with pcb := { s.pcb with
      irs := tcp.sequenceNum
      rcv_nxt := tcp.sequenceNum + 1
      state := .synReceived
      snd_nxt := s.pcb.iss } } (TCP_FLAGS_SYN ||| TCP_FLAGS_ACK) 0).1
  else s

/-- `TCPHandlePacket` and `TCPHandlePacket6` from the point where they have the socket. A
listener's new sockets are no part of the listener. -/
def tcpHandlePacket (ipv6 ready : Bool) (s : AuSocket) (tcp : TCPHeader) (payload : List UInt8) :
    AuSocket :=
  if has tcp.flags TCP_FLAGS_RST then
    { s with pcb := { s.pcb with state := .closed }, sockState := .connectionRst }
  else
    match s.pcb.state with
    | .listen => s
    | .synSent => tcpHandleSynSent ipv6 ready s tcp
    | _ => tcpHandleEstablished ready s tcp payload

inductive RecvResult
  | again
  | eof
  | bytes (got : List UInt8)
  deriving DecidableEq, Repr

/-- `AuTCPReceive` of `want` bytes, after its poll for packets; it returns -1, 0 or the
number of bytes. -/
def auTCPReceive (ready : Bool) (s : AuSocket) (want : ℕ) : AuSocket × RecvResult :=
  if circBufEmpty s.pcb.rxbuf then
    if s.pcb.fin_recvd ∨ s.pcb.state = .closeWait ∨ s.pcb.state = .closed then (s, .eof)
    else (s, .again)
  else
    let before := tcpWindowOf s
    let (rxbuf, got) := auCircBufRead s.pcb.rxbuf want
    let s := { s with pcb := { s.pcb with rxbuf } }
    let after := tcpWindowOf s
    -- a reader that makes room tells a peer that has little left
    if got.length > 0 ∧ (s.pcb.state = .established ∨ s.pcb.state = .closeWait) ∧
        before.toNat < TCP_MSS * 2 ∧ after.toNat > before.toNat then
      (tcpSendAck ready s, .bytes got)
    else (s, .bytes got)

/-! ## The connection -/

/-- A peer: its first sequence number, all it sends, and whether it then ends the stream. -/
structure Peer where
  irs : BitVec 32
  stream : List UInt8
  ends : Bool
  deriving DecidableEq, Repr

/-- A segment with the bytes from `off` to `off + len` of its sender's stream. -/
structure Segment where
  off : ℕ
  len : ℕ
  flags : BitVec 16
  ackNum : BitVec 32
  window : BitVec 16
  deriving DecidableEq, Repr

/-- The place of the segment when the SYN has place zero and the stream starts at one. -/
def Segment.place (g : Segment) : ℕ := if has g.flags TCP_FLAGS_SYN then 0 else g.off + 1

def Segment.header (p : Peer) (g : Segment) : TCPHeader where
  sequenceNum := p.irs + BitVec.ofNat 32 g.place
  ackNum := g.ackNum
  flags := g.flags
  window := g.window

def Segment.payload (p : Peer) (g : Segment) : List UInt8 := (p.stream.drop g.off).take g.len

/-- A segment the peer can send: part of its stream, with a SYN only at the start and a FIN
only at the end. -/
def Segment.From (p : Peer) (g : Segment) : Prop :=
  g.off + g.len ≤ p.stream.length ∧ (has g.flags TCP_FLAGS_SYN → g.off = 0) ∧
    (has g.flags TCP_FLAGS_FIN → p.ends ∧ g.off + g.len = p.stream.length)

instance (p : Peer) (g : Segment) : Decidable (g.From p) :=
  inferInstanceAs (Decidable (_ ∧ _ ∧ _))

/-- The socket, the peer it talks to, whether the peer's SYN has come, what the reader of
the connection got and whether it was told of the end. -/
structure Conn where
  sock : AuSocket
  peer : Option Peer
  synced : Bool
  delivered : List UInt8
  eof : Bool

def Conn.init : Conn :=
  { sock := tcpAllocSocket, peer := none, synced := false, delivered := [], eof := false }

/-- The peer's SYN has come once the socket left the state that waits for it with one. -/
def syncs (synced : Bool) (s s' : AuSocket) : Bool :=
  synced ∨ (s.pcb.state = .synSent ∧ (s'.pcb.state = .established ∨ s'.pcb.state = .synReceived))

inductive Act
  | connect (p : Peer) (nonblock ready : Bool) (rand : BitVec 32)
  | listenSyn (p : Peer) (ready : Bool) (rand : BitVec 32) (g : Segment)
  | connectPoll (late ready : Bool)
  | connectWait (late ready : Bool) (attempts : ℕ)
  | segment (ipv6 ready : Bool) (g : Segment)
  | receive (ready : Bool) (want : ℕ)
  | send (ready : ℕ → Bool) (len : ℕ)
  | listen
  | close (ready : Bool)

/-- What the reader of the connection learns from a call. -/
def Conn.told (c : Conn) (sock : AuSocket) : RecvResult → Conn
  | .again => { c with sock }
  | .eof => { c with sock, eof := true }
  | .bytes got => { c with sock, delivered := c.delivered ++ got }

/-- A segment that is not the peer's, or comes before there is one, is none of the
connection's. -/
def step (c : Conn) : Act → Conn
  | .connect p nonblock ready rand =>
    if startsHandshake nonblock c.sock then
      { sock := auTCPConnect ready rand c.sock, peer := some p, synced := false,
        delivered := [], eof := false }
    else if c.sock.pcb.state = .established then
      { c with sock := { c.sock with sockState := .connected } }
    else c
  | .listenSyn p ready rand g =>
    if g.From p ∧ has g.flags TCP_FLAGS_SYN then
      { sock := tcpHandleListenSyn ready rand (g.header p), peer := some p, synced := true,
        delivered := [], eof := false }
    else c
  | .connectPoll late ready => { c with sock := auTCPConnectPoll late ready c.sock }
  | .connectWait late ready attempts =>
    { c with sock := auTCPConnectWait late ready attempts c.sock }
  | .segment ipv6 ready g =>
    match c.peer with
    | none => c
    | some p =>
      if g.From p then
        let sock := tcpHandlePacket ipv6 ready c.sock (g.header p) (g.payload p)
        { c with sock, synced := syncs c.synced c.sock sock }
      else c
  | .receive ready want =>
    let (sock, res) := auTCPReceive ready c.sock want
    c.told sock res
  | .send ready len => { c with sock := auTCPSend ready c.sock len }
  | .listen => { c with sock := auTCPListen c.sock }
  | .close ready => { c with sock := auTCPClose ready c.sock }

def exec (acts : List Act) : Conn := run step Conn.init acts

end Xeneva.Net
