import Xeneva.Net.Tcp

/-!
# Dispatch of TCP segments

The sockets of both families, and the two handlers from the packet to the socket.
-/

namespace Xeneva.Net

/-- A socket with its place in the network. -/
structure TcpSock where
  sock : AuSocket
  sessionPort : BitVec 16
  is_ipv6 : Bool
  remote_ip : BitVec 32
  remote_ip6 : BitVec 128
  remote_port : BitVec 16
  parent : Option ℕ
  backlog : ℤ
  acceptq : Option (List ℕ)

/-- The sockets, numbered in the order in which they are allocated, the ones that are
registered, and the resets that were sent without a socket, the latest first. -/
structure TcpLayer where
  sock : ℕ → TcpSock
  next : ℕ
  tcpSocketList : List ℕ
  resets : List TCPHeader

/-- What the handlers get from the rest of the kernel: whether a segment of the socket can be
sent, whether a reset can, whether a socket, its place in the list and its place in the accept
queue can be allocated, and a random number. -/
structure TcpEnv where
  ready : Bool
  reset : Bool
  child : Bool
  entry : Bool
  queue : Bool
  rand : BitVec 32

/-- A segment as it lies behind the IP header; `doff` counts words of 4 bytes and `data` is
what follows the TCP header. -/
structure TcpSegment where
  srcPort : BitVec 16
  destPort : BitVec 16
  doff : BitVec 4
  header : TCPHeader
  data : List UInt8

def tcpHdrBytes (g : TcpSegment) : ℕ := g.doff.toNat * 4

def TcpLayer.setSock (w : TcpLayer) (k : ℕ) (s : TcpSock) : TcpLayer :=
  { w with sock := Function.update w.sock k s }

/-- The socket's own state changes, its place in the network does not. -/
def TcpLayer.setState (w : TcpLayer) (k : ℕ) (s : AuSocket) : TcpLayer :=
  w.setSock k { w.sock k with sock := s }

/-- The search of `TCPFindSocket`, with the listener found so far. -/
def findFrom (w : TcpLayer) (srcIP : BitVec 32) (srcPort destPort : BitVec 16) :
    Option ℕ → List ℕ → Option ℕ
  | listener, [] => listener
  | listener, k :: rest =>
    let s := w.sock k
    if s.sessionPort ≠ destPort then findFrom w srcIP srcPort destPort listener rest
    else if s.is_ipv6 then findFrom w srcIP srcPort destPort listener rest
    else if s.sock.pcb.state = .listen then findFrom w srcIP srcPort destPort (some k) rest
    else if s.remote_ip = srcIP ∧ s.remote_port = srcPort then some k
    else findFrom w srcIP srcPort destPort listener rest

def tcpFindSocket (w : TcpLayer) (srcIP : BitVec 32) (srcPort destPort : BitVec 16) : Option ℕ :=
  findFrom w srcIP srcPort destPort none w.tcpSocketList

/-- The search of `TCPFindSocket6`; listeners of both families are taken. -/
def findFrom6 (w : TcpLayer) (srcIP : BitVec 128) (srcPort destPort : BitVec 16) :
    Option ℕ → List ℕ → Option ℕ
  | listener, [] => listener
  | listener, k :: rest =>
    let s := w.sock k
    if s.sessionPort ≠ destPort then findFrom6 w srcIP srcPort destPort listener rest
    else if s.sock.pcb.state = .listen then findFrom6 w srcIP srcPort destPort (some k) rest
    else if s.is_ipv6 ∧ s.remote_ip6 = srcIP ∧ s.remote_port = srcPort then some k
    else findFrom6 w srcIP srcPort destPort listener rest

def tcpFindSocket6 (w : TcpLayer) (srcIP : BitVec 128) (srcPort destPort : BitVec 16) : Option ℕ :=
  findFrom6 w srcIP srcPort destPort none w.tcpSocketList

/-- The reset that answers a segment of length `segLen`. -/
def resetHeader (tcp : TCPHeader) (segLen : ℕ) : TCPHeader :=
  if has tcp.flags TCP_FLAGS_ACK then ⟨tcp.ackNum, 0, TCP_FLAGS_RST, 0⟩
  else ⟨0, tcp.sequenceNum + BitVec.ofNat 32 segLen, TCP_FLAGS_RST ||| TCP_FLAGS_ACK, 0⟩

def tcpSendReset (e : TcpEnv) (w : TcpLayer) (tcp : TCPHeader) (segLen : ℕ) : TcpLayer :=
  if !e.reset then w
  else if has tcp.flags TCP_FLAGS_RST then w
  else { w with resets := resetHeader tcp segLen :: w.resets }

/-- The length of a segment in sequence numbers. -/
def segmentLength (tcp : TCPHeader) (payload : List UInt8) : ℕ :=
  payload.length + (if has tcp.flags TCP_FLAGS_SYN then 1 else 0) +
    if has tcp.flags TCP_FLAGS_FIN then 1 else 0

def tcpQueueAccept (e : TcpEnv) (w : TcpLayer) (listener child : ℕ) : TcpLayer :=
  if !e.queue then w
  else w.setSock listener
    { w.sock listener with acceptq := some (((w.sock listener).acceptq).getD [] ++ [child]) }

/-- `TCPHandleEstablished` with the accept queue of the socket's listener. -/
def handleEstablished (e : TcpEnv) (w : TcpLayer) (k : ℕ) (tcp : TCPHeader)
    (payload : List UInt8) : TcpLayer :=
  let s := (w.sock k).sock
  let accepted : Bool := has tcp.flags TCP_FLAGS_ACK ∧ s.pcb.state = .synReceived ∧
    tcp.ackNum = s.pcb.snd_nxt
  let w := w.setState k (tcpHandleEstablished e.ready s tcp payload)
  match (w.sock k).parent with
  | none => w
  | some listener => if accepted then tcpQueueAccept e w listener k else w

/-- A connection that ends with a RST; the owner sees it in the state of the socket. -/
def resetByPeer (s : AuSocket) : AuSocket :=
  { s with pcb := { s.pcb with state := .closed }, sockState := .connectionRst }

/-- The connection is made by the answer to the own SYN. -/
def connectedBy (e : TcpEnv) (s : AuSocket) (tcp : TCPHeader) : AuSocket :=
  tcpSendAck e.ready { s with
    pcb := { s.pcb with
      irs := tcp.sequenceNum
      rcv_nxt := tcp.sequenceNum + 1
      snd_una := tcp.ackNum
      snd_wnd := tcp.window
      state := .established }
    sockState := .connected }

/-- No room for a connection that is not accepted yet. -/
def backlogFull (l : TcpSock) : Bool :=
  match l.acceptq with
  | none => false
  | some q => (q.length : ℤ) ≥ l.backlog

/-- A new socket is registered. -/
def registerChild (e : TcpEnv) (w : TcpLayer) (child : TcpSock) : TcpLayer :=
  { w with
    sock := Function.update w.sock w.next child
    next := w.next + 1
    tcpSocketList := w.tcpSocketList ++ if e.entry then [w.next] else [] }

/-! ## The handlers -/

def handleListenSyn (e : TcpEnv) (w : TcpLayer) (listener : ℕ) (src : BitVec 32) (g : TcpSegment) :
    TcpLayer :=
  if backlogFull (w.sock listener) then tcpSendReset e w g.header 1
  else if !e.child then tcpSendReset e w g.header 1
  else registerChild e w {
    sock := tcpHandleListenSyn e.ready e.rand g.header
    sessionPort := (w.sock listener).sessionPort
    is_ipv6 := false
    remote_ip := src
    remote_ip6 := 0
    remote_port := g.srcPort
    parent := some listener
    backlog := 0
    acceptq := none }

/-- `TCPHandlePacket`: `ihl` counts words of 4 bytes. -/
def tcpHandlePacket4 (e : TcpEnv) (w : TcpLayer) (ihl : BitVec 4) (totalLength : ℕ)
    (src : BitVec 32) (g : TcpSegment) : TcpLayer :=
  let ipBytes := ihl.toNat * 4
  if ipBytes < 20 then w
  else if tcpHdrBytes g < 20 then w
  else if totalLength < ipBytes + tcpHdrBytes g then w
  else
    let tcp := g.header
    let payload := g.data.take (totalLength - ipBytes - tcpHdrBytes g)
    let segLen := segmentLength tcp payload
    match tcpFindSocket w src g.srcPort g.destPort with
    | none => if !has tcp.flags TCP_FLAGS_RST then tcpSendReset e w tcp segLen else w
    | some k =>
      let s := (w.sock k).sock
      if has tcp.flags TCP_FLAGS_RST then w.setState k (resetByPeer s)
      else match s.pcb.state with
      | .listen => if has tcp.flags TCP_FLAGS_SYN then handleListenSyn e w k src g else w
      | .synSent =>
        if has tcp.flags TCP_FLAGS_SYN ∧ has tcp.flags TCP_FLAGS_ACK then
          if tcp.ackNum ≠ s.pcb.iss + 1 then tcpSendReset e w tcp segLen
          else w.setState k (connectedBy e s tcp)
        else if has tcp.flags TCP_FLAGS_SYN then
          w.setState k (tcpSendSegment e.ready { s with pcb := { s.pcb with
            irs := tcp.sequenceNum
            rcv_nxt := tcp.sequenceNum + 1
            state := .synReceived
            snd_nxt := s.pcb.iss } } (TCP_FLAGS_SYN ||| TCP_FLAGS_ACK) 0).1
        else w
      | _ => handleEstablished e w k tcp payload

def handleListenSyn6 (e : TcpEnv) (w : TcpLayer) (listener : ℕ) (src : BitVec 128)
    (g : TcpSegment) : TcpLayer :=
  if backlogFull (w.sock listener) then w
  else if !e.child then w
  else registerChild e w {
    sock := tcpHandleListenSyn e.ready e.rand g.header
    sessionPort := (w.sock listener).sessionPort
    is_ipv6 := true
    remote_ip := 0
    remote_ip6 := src
    remote_port := g.srcPort
    parent := some listener
    backlog := 0
    acceptq := none }

/-- `TCPHandlePacket6`. -/
def tcpHandlePacket6 (e : TcpEnv) (w : TcpLayer) (payloadLen : ℕ) (src : BitVec 128)
    (g : TcpSegment) : TcpLayer :=
  if tcpHdrBytes g < 20 then w
  else if payloadLen < tcpHdrBytes g then w
  else
    let tcp := g.header
    let payload := g.data.take (payloadLen - tcpHdrBytes g)
    match tcpFindSocket6 w src g.srcPort g.destPort with
    | none => w
    | some k =>
      let s := (w.sock k).sock
      if has tcp.flags TCP_FLAGS_RST then w.setState k (resetByPeer s)
      else match s.pcb.state with
      | .listen => if has tcp.flags TCP_FLAGS_SYN then handleListenSyn6 e w k src g else w
      | .synSent =>
        if has tcp.flags TCP_FLAGS_SYN ∧ has tcp.flags TCP_FLAGS_ACK then
          if tcp.ackNum ≠ s.pcb.iss + 1 then w
          else w.setSock k { w.sock k with
            sock := connectedBy e s tcp
            is_ipv6 := true
            remote_ip6 := src }
        else w
      | _ => handleEstablished e w k tcp payload

end Xeneva.Net

/-!
# TCP over both families

Every IPv4 socket has its IPv6 counterpart. The handler for IPv6 does to the counterparts what
the handler for IPv4 does to the sockets, except where it lacks an answer.
-/

namespace Xeneva.Net

variable {e : TcpEnv} {w : TcpLayer}

/-! ## Counterparts -/

/-- The IPv6 address that stands for an IPv4 address. -/
def mapped (a : BitVec 32) : BitVec 128 := a.setWidth 128

theorem mapped_injective {a b : BitVec 32} (h : mapped a = mapped b) : a = b := by
  apply BitVec.eq_of_toNat_eq
  have hn := congrArg BitVec.toNat h
  simp only [mapped, BitVec.toNat_setWidth] at hn
  have ha := a.isLt
  have hb := b.isLt
  omega

/-- The same socket with an IPv6 peer. -/
def TcpSock.to6 (s : TcpSock) : TcpSock :=
  { s with is_ipv6 := true, remote_ip := 0, remote_ip6 := mapped s.remote_ip }

def TcpLayer.to6 (w : TcpLayer) : TcpLayer := { w with sock := fun k => (w.sock k).to6 }

/-- The registered sockets are those of IPv4. -/
def OnlyIPv4 (w : TcpLayer) : Prop := ∀ k ∈ w.tcpSocketList, (w.sock k).is_ipv6 = false

@[simp] theorem to6_sock (w : TcpLayer) (k : ℕ) : w.to6.sock k = (w.sock k).to6 := rfl

theorem to6_setSock (w : TcpLayer) (k : ℕ) (s : TcpSock) :
    (w.setSock k s).to6 = w.to6.setSock k s.to6 := by
  unfold TcpLayer.to6 TcpLayer.setSock
  congr 1
  funext j
  by_cases hj : j = k
  · simp [hj]
  · simp [Function.update_of_ne hj]

theorem to6_setState (w : TcpLayer) (k : ℕ) (s : AuSocket) :
    (w.setState k s).to6 = w.to6.setState k s := to6_setSock w k _

theorem to6_findFrom (src : BitVec 32) (srcPort destPort : BitVec 16) (listener : Option ℕ)
    (l : List ℕ) (h : ∀ k ∈ l, (w.sock k).is_ipv6 = false) :
    findFrom6 w.to6 (mapped src) srcPort destPort listener l =
      findFrom w src srcPort destPort listener l := by
  induction l generalizing listener with
  | nil => rfl
  | cons k rest ih =>
    have hrest := fun listener => ih listener fun j hj => h j (List.mem_cons_of_mem k hj)
    have hk := h k List.mem_cons_self
    have hip : mapped (w.sock k).remote_ip = mapped src ↔ (w.sock k).remote_ip = src :=
      ⟨mapped_injective, congrArg mapped⟩
    unfold findFrom6 findFrom
    simp only [hrest, hk, to6_sock, TcpSock.to6, hip, true_and, Bool.false_eq_true, if_false]

theorem to6_find (h : OnlyIPv4 w) (src : BitVec 32) (srcPort destPort : BitVec 16) :
    tcpFindSocket6 w.to6 (mapped src) srcPort destPort = tcpFindSocket w src srcPort destPort :=
  to6_findFrom src srcPort destPort none _ h

/-- What is found is a listener, or a socket with this peer. -/
theorem findFrom_peer {src : BitVec 32} {srcPort destPort : BitVec 16} {listener : Option ℕ}
    {l : List ℕ} {k : ℕ} (h : findFrom w src srcPort destPort listener l = some k) :
    listener = some k ∨ (w.sock k).sock.pcb.state = .listen ∨ (w.sock k).remote_ip = src := by
  induction l generalizing listener with
  | nil => exact .inl h
  | cons j rest ih =>
    unfold findFrom at h
    simp only at h
    split at h
    · exact ih h
    split at h
    · exact ih h
    split at h
    case isTrue hl =>
      rcases ih h with hj | h'
      · rw [← Option.some.inj hj]
        exact .inr (.inl hl)
      · exact .inr h'
    · split at h
      case isTrue hm =>
        rw [← Option.some.inj h]
        exact .inr (.inr hm.1)
      · exact ih h

theorem to6_queueAccept (e : TcpEnv) (w : TcpLayer) (listener child : ℕ) :
    (tcpQueueAccept e w listener child).to6 = tcpQueueAccept e w.to6 listener child := by
  unfold tcpQueueAccept
  split
  · rfl
  · exact to6_setSock w listener _

theorem to6_established (e : TcpEnv) (w : TcpLayer) (k : ℕ) (tcp : TCPHeader)
    (payload : List UInt8) :
    (handleEstablished e w k tcp payload).to6 = handleEstablished e w.to6 k tcp payload := by
  have hsock : (w.to6.sock k).sock = (w.sock k).sock := rfl
  unfold handleEstablished
  simp only [hsock, ← to6_setState]
  generalize w.setState k _ = u
  have hparent : (u.to6.sock k).parent = (u.sock k).parent := rfl
  rw [hparent]
  cases (u.sock k).parent with
  | none => rfl
  | some listener =>
    simp only
    split
    · exact to6_queueAccept e u listener k
    · rfl

theorem to6_register (e : TcpEnv) (w : TcpLayer) (child : TcpSock) :
    (registerChild e w child).to6 = registerChild e w.to6 child.to6 := by
  unfold registerChild TcpLayer.to6
  congr 1
  funext j
  by_cases hj : j = w.next
  · simp [hj]
  · simp [Function.update_of_ne hj]

/-! ## The same segment in both families -/

/-- Both handlers drop the segment at once. -/
def Malformed (tcpLen : ℕ) (g : TcpSegment) : Prop := tcpHdrBytes g < 20 ∨ tcpLen < tcpHdrBytes g

/-- The handler for IPv4 refuses the segment with a reset. -/
def Refused (e : TcpEnv) (w : TcpLayer) (src : BitVec 32) (g : TcpSegment) : Prop :=
  e.reset ∧ ¬has g.header.flags TCP_FLAGS_RST ∧
    match tcpFindSocket w src g.srcPort g.destPort with
    | none => True
    | some k =>
      ((w.sock k).sock.pcb.state = .listen ∧ has g.header.flags TCP_FLAGS_SYN ∧
        (backlogFull (w.sock k) ∨ ¬e.child)) ∨
      ((w.sock k).sock.pcb.state = .synSent ∧ has g.header.flags TCP_FLAGS_SYN ∧
        has g.header.flags TCP_FLAGS_ACK ∧ g.header.ackNum ≠ (w.sock k).sock.pcb.iss + 1)

/-- The peer's SYN has crossed the own one. -/
def OpenedByBoth (w : TcpLayer) (src : BitVec 32) (g : TcpSegment) : Prop :=
  ¬has g.header.flags TCP_FLAGS_RST ∧
    ∃ k, tcpFindSocket w src g.srcPort g.destPort = some k ∧
      (w.sock k).sock.pcb.state = .synSent ∧ has g.header.flags TCP_FLAGS_SYN ∧
      ¬has g.header.flags TCP_FLAGS_ACK

theorem reset_to6_ne {tcp : TCPHeader} (hr : e.reset) (h : ¬has tcp.flags TCP_FLAGS_RST) (n : ℕ) :
    w.to6 ≠ (tcpSendReset e w tcp n).to6 := by
  intro he
  have hlen := congrArg (fun u => u.resets.length) he
  simp [TcpLayer.to6, tcpSendReset, hr, h] at hlen

theorem reset_to6_eq {tcp : TCPHeader} (hr : ¬e.reset) (n : ℕ) :
    w.to6 = (tcpSendReset e w tcp n).to6 := by
  rw [tcpSendReset, if_pos (by simpa using hr)]

theorem reset_to6_iff {tcp : TCPHeader} (h : ¬has tcp.flags TCP_FLAGS_RST) (n : ℕ) :
    w.to6 = (tcpSendReset e w tcp n).to6 ↔ ¬e.reset := by
  constructor
  · intro he hr
    exact reset_to6_ne hr h n he
  · intro hr
    exact reset_to6_eq hr n

/-- What a listener answers to a SYN. -/
theorem listen_to6_iff (e : TcpEnv) (w : TcpLayer) (k : ℕ) (src : BitVec 32) {g : TcpSegment}
    (h : ¬has g.header.flags TCP_FLAGS_RST) :
    handleListenSyn6 e w.to6 k (mapped src) g = (handleListenSyn e w k src g).to6 ↔
      ¬(e.reset ∧ (backlogFull (w.sock k) ∨ ¬e.child)) := by
  have hfull : backlogFull (w.to6.sock k) = backlogFull (w.sock k) := rfl
  unfold handleListenSyn6 handleListenSyn
  rw [hfull]
  by_cases hb : backlogFull (w.sock k)
  · rw [if_pos hb, if_pos hb, reset_to6_iff h]
    simp [hb]
  · rw [if_neg hb, if_neg hb]
    by_cases hc : e.child
    · rw [if_neg (by simp [hc]), if_neg (by simp [hc]), to6_register]
      simp only [hb, hc, not_true, or_false, Bool.false_eq_true, and_false, not_false_eq_true,
        iff_true]
      rfl
    · rw [if_pos (by simp [hc]), if_pos (by simp [hc]), reset_to6_iff h]
      simp [hc]

/-- The peer's SYN and the own one: the socket leaves its state for IPv4 only. -/
theorem crossed_ne (ready : Bool) (w : TcpLayer) (k : ℕ) {s : AuSocket} (tcp : TCPHeader)
    (hs : (w.sock k).sock.pcb.state = .synSent) :
    w.to6 ≠ (w.setState k (tcpSendSegment ready { s with pcb := { s.pcb with
      irs := tcp.sequenceNum
      rcv_nxt := tcp.sequenceNum + 1
      state := .synReceived
      snd_nxt := s.pcb.iss } } (TCP_FLAGS_SYN ||| TCP_FLAGS_ACK) 0).1).to6 := by
  intro he
  have hstate := congrArg (fun u => (u.sock k).sock.pcb.state) he
  have hsend : ∀ u : AuSocket, (tcpSendSegment ready u (TCP_FLAGS_SYN ||| TCP_FLAGS_ACK) 0).1.pcb.state
      = u.pcb.state := by
    intro u
    unfold tcpSendSegment
    split <;> rfl
  simp only [TcpLayer.setState, TcpLayer.setSock, Function.update_self, hsend,
    to6_sock, TcpSock.to6, hs] at hstate
  exact absurd hstate (by decide)

theorem connected_to6 (e : TcpEnv) {k : ℕ} {src : BitVec 32} (s : AuSocket) (tcp : TCPHeader)
    (h : (w.sock k).remote_ip = src) :
    w.to6.setSock k { w.to6.sock k with
      sock := connectedBy e s tcp
      is_ipv6 := true
      remote_ip6 := mapped src } = (w.setState k (connectedBy e s tcp)).to6 := by
  rw [to6_setState, TcpLayer.setState, to6_sock, ← h]
  rfl

/-- What a socket that has sent its SYN answers. -/
theorem synSent_to6_iff (e : TcpEnv) {k : ℕ} {src : BitVec 32} {tcp : TCPHeader} (n : ℕ)
    (hs : (w.sock k).sock.pcb.state = .synSent) (hr : ¬has tcp.flags TCP_FLAGS_RST)
    (hip : (w.sock k).remote_ip = src) :
    let s := (w.sock k).sock
    ((if has tcp.flags TCP_FLAGS_SYN ∧ has tcp.flags TCP_FLAGS_ACK then
        if tcp.ackNum ≠ s.pcb.iss + 1 then w.to6
        else w.to6.setSock k { w.to6.sock k with
          sock := connectedBy e s tcp
          is_ipv6 := true
          remote_ip6 := mapped src }
      else w.to6) =
      (if has tcp.flags TCP_FLAGS_SYN ∧ has tcp.flags TCP_FLAGS_ACK then
        if tcp.ackNum ≠ s.pcb.iss + 1 then tcpSendReset e w tcp n
        else w.setState k (connectedBy e s tcp)
      else if has tcp.flags TCP_FLAGS_SYN then
        w.setState k (tcpSendSegment e.ready { s with pcb := { s.pcb with
          irs := tcp.sequenceNum
          rcv_nxt := tcp.sequenceNum + 1
          state := .synReceived
          snd_nxt := s.pcb.iss } } (TCP_FLAGS_SYN ||| TCP_FLAGS_ACK) 0).1
      else w).to6) ↔
    ¬(e.reset ∧ has tcp.flags TCP_FLAGS_SYN ∧ has tcp.flags TCP_FLAGS_ACK ∧
      tcp.ackNum ≠ s.pcb.iss + 1) ∧
    ¬(has tcp.flags TCP_FLAGS_SYN ∧ ¬has tcp.flags TCP_FLAGS_ACK) := by
  intro s
  by_cases hsyn : has tcp.flags TCP_FLAGS_SYN
  · by_cases hack : has tcp.flags TCP_FLAGS_ACK
    · have hboth : has tcp.flags TCP_FLAGS_SYN ∧ has tcp.flags TCP_FLAGS_ACK := ⟨hsyn, hack⟩
      rw [if_pos hboth, if_pos hboth]
      by_cases hne : tcp.ackNum ≠ s.pcb.iss + 1
      · rw [if_pos hne, if_pos hne, reset_to6_iff hr]
        constructor
        · intro h
          exact ⟨fun hc => h hc.1, fun hc => hc.2 hack⟩
        · intro h hreset
          exact h.1 ⟨hreset, hsyn, hack, hne⟩
      · rw [if_neg hne, if_neg hne, connected_to6 e s tcp hip]
        exact iff_of_true rfl ⟨fun hc => hne hc.2.2.2, fun hc => hc.2 hack⟩
    · have hboth : ¬(has tcp.flags TCP_FLAGS_SYN ∧ has tcp.flags TCP_FLAGS_ACK) := fun hc =>
        hack hc.2
      rw [if_neg hboth, if_neg hboth, if_pos hsyn]
      apply iff_of_false (crossed_ne e.ready w k tcp hs)
      intro hc
      exact hc.2 ⟨hsyn, hack⟩
  · have hboth : ¬(has tcp.flags TCP_FLAGS_SYN ∧ has tcp.flags TCP_FLAGS_ACK) := fun hc =>
      hsyn hc.1
    rw [if_neg hboth, if_neg hboth, if_neg hsyn]
    simp [hsyn]

/-- The two handlers do the same, from an IPv4 layer and its IPv6 counterpart, exactly when the
segment is not refused with a reset and no two SYNs have crossed. -/
theorem tcpHandlePacket6_iff (e : TcpEnv) (w : TcpLayer) (h : OnlyIPv4 w) (ihl : BitVec 4)
    (hihl : 5 ≤ ihl.toNat) (tcpLen : ℕ) (src : BitVec 32) (g : TcpSegment) :
    tcpHandlePacket6 e w.to6 tcpLen (mapped src) g =
        (tcpHandlePacket4 e w ihl (ihl.toNat * 4 + tcpLen) src g).to6 ↔
      Malformed tcpLen g ∨ ¬Refused e w src g ∧ ¬OpenedByBoth w src g := by
  unfold tcpHandlePacket6 tcpHandlePacket4
  have hip : ¬ihl.toNat * 4 < 20 := by omega
  have hlen : ihl.toNat * 4 + tcpLen < ihl.toNat * 4 + tcpHdrBytes g ↔ tcpLen < tcpHdrBytes g := by
    omega
  have htake : ihl.toNat * 4 + tcpLen - ihl.toNat * 4 - tcpHdrBytes g = tcpLen - tcpHdrBytes g := by
    omega
  simp only [if_neg hip, hlen, htake]
  by_cases hd : tcpHdrBytes g < 20
  · rw [if_pos hd, if_pos hd]
    exact iff_of_true rfl (.inl (.inl hd))
  rw [if_neg hd, if_neg hd]
  by_cases hl : tcpLen < tcpHdrBytes g
  · rw [if_pos hl, if_pos hl]
    exact iff_of_true rfl (.inl (.inr hl))
  have hm : ¬Malformed tcpLen g := not_or.mpr ⟨hd, hl⟩
  rw [if_neg hl, if_neg hl, or_iff_right hm, to6_find h]
  unfold Refused OpenedByBoth
  by_cases hr : has g.header.flags TCP_FLAGS_RST
  · have hsame : ∀ k, w.to6.setState k (resetByPeer (w.to6.sock k).sock) =
        (w.setState k (resetByPeer (w.sock k).sock)).to6 := fun k => (to6_setState w k _).symm
    cases tcpFindSocket w src g.srcPort g.destPort with
    | none => simp [hr]
    | some k =>
      simp only [if_pos hr]
      exact iff_of_true (hsame k) ⟨fun hc => hc.2.1 hr, fun hc => hc.1 hr⟩
  · cases hf : tcpFindSocket w src g.srcPort g.destPort with
    | none =>
      simp only [hr, Bool.not_false, if_true, reset_to6_iff hr]
      simp
    | some k =>
      have hsock : (w.to6.sock k).sock = (w.sock k).sock := rfl
      simp only [if_neg hr, hsock]
      cases hs : (w.sock k).sock.pcb.state with
      | listen =>
        simp only
        by_cases hsyn : has g.header.flags TCP_FLAGS_SYN
        · rw [if_pos hsyn, if_pos hsyn, listen_to6_iff e w k src hr]
          simp [hr, hsyn, hs]
        · rw [if_neg hsyn, if_neg hsyn]
          simp [hsyn]
      | synSent =>
        have hip : (w.sock k).remote_ip = src := by
          rcases findFrom_peer hf with h' | h' | h'
          · exact absurd h' (by simp)
          · exact absurd (hs.symm.trans h') (by decide)
          · exact h'
        simp only
        refine (synSent_to6_iff e _ hs hr hip).trans ?_
        simp [hr, hs]
      | _ => simp [to6_established, hs]

/-- One socket that has sent its SYN to a peer at port 80. -/
def oneSynSent : TcpLayer where
  sock _ := {
    sock := { tcpAllocSocket with pcb := { tcpAllocPCB with state := .synSent } }
    sessionPort := 50000
    is_ipv6 := false
    remote_ip := 1
    remote_ip6 := 0
    remote_port := 80
    parent := none
    backlog := 0
    acceptq := none }
  next := 1
  tcpSocketList := [0]
  resets := []

theorem oneSynSent_ipv4 : OnlyIPv4 oneSynSent := fun _ _ => rfl

def allReady : TcpEnv := ⟨true, true, true, true, true, 7⟩

/-- The peer's SYN, without an acknowledgement. -/
def crossingSyn : TcpSegment := ⟨80, 50000, 5, ⟨100, 0, TCP_FLAGS_SYN, 1000⟩, []⟩

theorem tcpHandlePacket6_iff_crossing :
    tcpHandlePacket6 allReady oneSynSent.to6 20 (mapped 1) crossingSyn =
        (tcpHandlePacket4 allReady oneSynSent 5 40 1 crossingSyn).to6 ↔
      Malformed 20 crossingSyn ∨
        ¬Refused allReady oneSynSent 1 crossingSyn ∧ ¬OpenedByBoth oneSynSent 1 crossingSyn :=
  tcpHandlePacket6_iff allReady oneSynSent oneSynSent_ipv4 5 (by decide) 20 1 crossingSyn

/-- When two SYNs have crossed, only the IPv4 socket answers. -/
theorem not_tcpHandlePacket6 : ¬∀ (e : TcpEnv) (w : TcpLayer), OnlyIPv4 w →
    ∀ (ihl : BitVec 4), 5 ≤ ihl.toNat → ∀ (tcpLen : ℕ) (src : BitVec 32) (g : TcpSegment),
      tcpHandlePacket6 e w.to6 tcpLen (mapped src) g =
        (tcpHandlePacket4 e w ihl (ihl.toNat * 4 + tcpLen) src g).to6 := by
  intro h
  have he := h allReady oneSynSent oneSynSent_ipv4 5 (by decide) 20 1 crossingSyn
  have hstate := congrArg (fun u => (u.sock 0).sock.pcb.state) he
  revert hstate
  decide +kernel

end Xeneva.Net
