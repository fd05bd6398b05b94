import Xeneva.Net.Tcp

/-!
# Listeners and their children

All TCP sockets of the system. A listener makes a child for each SYN, and the child keeps a
pointer to it: when its handshake is done it goes into the queue of that listener, and when the
listener is closed it is reset. Nothing clears the pointer, neither `AuTCPAccept` nor the end of
the listener.
-/

namespace Xeneva.Net
open Base

/-- A socket with the fields that belong to listening; a `parent` of zero is `NULL`. -/
structure TcpSocket where
  sock : AuSocket := tcpAllocSocket
  sessionPort : ℕ := 0
  parent : ℕ := 0
  backlog : Int := 0
  acceptq : Option (List ℕ) := none

/-- `table` are the allocated sockets, and `files` are those an open file stands for. -/
structure TcpSys where
  table : ℕ → Option TcpSocket := fun _ => none
  tcpSocketList : List ℕ := []
  files : List ℕ := []

variable {s s' : TcpSys} {l c : ℕ} {e : TcpSocket}

def TcpSys.set (s : TcpSys) (a : ℕ) (e : TcpSocket) : TcpSys :=
  { s with table := Function.update s.table a (some e) }

def TcpSys.parentOf (s : TcpSys) (c : ℕ) : ℕ :=
  match s.table c with
  | some e => e.parent
  | none => 0

/-! ## The functions -/

def tcpRegisterSocket (s : TcpSys) (a : ℕ) : TcpSys :=
  if a ∈ s.tcpSocketList then s else { s with tcpSocketList := s.tcpSocketList ++ [a] }

def tcpUnregisterSocket (s : TcpSys) (a : ℕ) : TcpSys :=
  { s with tcpSocketList := s.tcpSocketList.erase a }

/-- A listener has the port. -/
def portTaken (s : TcpSys) (port : ℕ) : Bool :=
  s.tcpSocketList.any fun o => match s.table o with
    | some e => e.sessionPort = port ∧ e.sock.pcb.state = .listen
    | none => false

/-- `obtained` is the port `AuTCPObtainPort` would find. -/
def auTCPBind (s : TcpSys) (a : ℕ) (e : TcpSocket) (port obtained : ℕ) : TcpSys :=
  if e.sessionPort ≠ 0 then s
  else if port = 0 then tcpRegisterSocket (s.set a { e with sessionPort := obtained }) a
  else if portTaken s port then s
  else tcpRegisterSocket (s.set a { e with sessionPort := port }) a

def auTCPListenOn (s : TcpSys) (a : ℕ) (e : TcpSocket) (backlog : Int) : TcpSys :=
  if e.sessionPort = 0 then s
  else s.set a { e with
    backlog := if backlog ≤ 0 then 1 else backlog
    acceptq := some (e.acceptq.getD [])
    sock := auTCPListen e.sock }

/-- `AuTCPConnect`; `route` says whether there is a network card for the address. -/
def auTCPConnectTo (s : TcpSys) (a : ℕ) (e : TcpSocket) (nonblock route ready : Bool)
    (rand : BitVec 32) (obtained : ℕ) : TcpSys :=
  if e.sock.pcb.state = .established then
    s.set a { e with sock := { e.sock with sockState := .connected } }
  else if ¬ startsHandshake nonblock e.sock then s
  else
    let e := if e.sessionPort = 0 then { e with sessionPort := obtained } else e
    let s := tcpRegisterSocket (s.set a e) a
    if ¬ route then s else s.set a { e with sock := auTCPConnect ready rand e.sock }

/-- A listener with a full queue answers with a reset, as one without memory does. `child` is
the block `kmalloc` returned, if it did. -/
def tcpHandleListenSynOn (s : TcpSys) (l : ℕ) (e : TcpSocket) (ready : Bool) (rand : BitVec 32)
    (tcp : TCPHeader) (child : Option ℕ) : TcpSys :=
  if (e.acceptq.getD []).length ≥ e.backlog ∧ e.acceptq.isSome then s
  else match child with
    | none => s
    | some c => tcpRegisterSocket (s.set c {
        sock := tcpHandleListenSyn ready rand tcp
        sessionPort := e.sessionPort
        parent := l }) c

/-- The segment ends the handshake of a child. -/
def completes (s : AuSocket) (tcp : TCPHeader) : Bool :=
  has tcp.flags TCP_FLAGS_RST = false ∧ s.pcb.state = .synReceived ∧
    has tcp.flags TCP_FLAGS_ACK ∧ tcp.ackNum = s.pcb.snd_nxt

/-- A listener that was freed is no more in the table: what is written there is lost. -/
def tcpQueueAcceptOn (s : TcpSys) (l c : ℕ) : TcpSys :=
  match s.table l with
  | some e => s.set l { e with acceptq := some (e.acceptq.getD [] ++ [c]) }
  | none => s

/-- A segment that the registered socket `a` gets. -/
def tcpSegment (s : TcpSys) (a : ℕ) (e : TcpSocket) (ipv6 ready : Bool) (tcp : TCPHeader)
    (payload : List UInt8) (rand : BitVec 32) (child : Option ℕ) : TcpSys :=
  if e.sock.pcb.state = .listen ∧ has tcp.flags TCP_FLAGS_RST = false then
    if has tcp.flags TCP_FLAGS_SYN then tcpHandleListenSynOn s a e ready rand tcp child else s
  else
    let s' := s.set a { e with sock := tcpHandlePacket ipv6 ready e.sock tcp payload }
    if completes e.sock tcp ∧ e.parent ≠ 0 then tcpQueueAcceptOn s' e.parent a else s'

/-- `AuTCPAccept` with a connection in the queue; `opened` says whether it finds its process
and room for the file. -/
def auTCPAccept (s : TcpSys) (l : ℕ) (e : TcpSocket) (opened : Bool) : TcpSys :=
  match e.acceptq with
  | some (c :: q) =>
    if e.sock.pcb.state ≠ .listen then s
    else
      let s := s.set l { e with acceptq := some q }
      if opened then { s with files := c :: s.files } else s
  | _ => s

/-- What the end of a listener does to a child. -/
def TcpSocket.reset (e : TcpSocket) (ready : Bool) : TcpSocket :=
  let sock := (tcpSendSegment ready e.sock (TCP_FLAGS_RST ||| TCP_FLAGS_ACK) 0).1
  { e with sock := { sock with pcb := { sock.pcb with state := .closed } } }

/-- One turn of the loop of `AuTCPClose` over the sockets. -/
def resetChild (ready : ℕ → Bool) (l c : ℕ) (table : ℕ → Option TcpSocket) :
    ℕ → Option TcpSocket :=
  match table c with
  | some e => if e.parent = l then Function.update table c (some (e.reset (ready c))) else table
  | none => table

/-- The loop starts at the last socket. -/
def resetChildren (ready : ℕ → Bool) (l : ℕ) (list : List ℕ)
    (table : ℕ → Option TcpSocket) : ℕ → Option TcpSocket :=
  list.foldr (resetChild ready l) table

/-- `AuTCPClose`; the last branch is its part for a socket alone. -/
def auTCPCloseAll (s : TcpSys) (a : ℕ) (e : TcpSocket) (ready : ℕ → Bool) : TcpSys :=
  let s := s.set a { e with sock := auTCPClose (ready a) e.sock }
  if e.sock.pcb.state = .listen then
    { s with table := resetChildren ready a s.tcpSocketList s.table }
  else s

/-- `AuTCPFileClose`: the socket is closed, taken out of the list and freed. -/
def auTCPFileClose (s : TcpSys) (a : ℕ) (e : TcpSocket) (ready : ℕ → Bool) : TcpSys :=
  let s := tcpUnregisterSocket (auTCPCloseAll s a e ready) a
  { s with table := Function.update s.table a none, files := s.files.erase a }

/-- The calls of an owner that read and write its own socket alone. -/
inductive OwnCall
  | connectPoll (late ready : Bool)
  | connectWait (late ready : Bool) (attempts : ℕ)
  | receive (ready : Bool) (want : ℕ)
  | send (ready : ℕ → Bool) (len : ℕ)

def OwnCall.apply (s : AuSocket) : OwnCall → AuSocket
  | .connectPoll late ready => auTCPConnectPoll late ready s
  | .connectWait late ready attempts => auTCPConnectWait late ready attempts s
  | .receive ready want => (auTCPReceive ready s want).1
  | .send ready len => auTCPSend ready s len

inductive TcpAct
  | socket (a : ℕ)
  | bind (a port obtained : ℕ)
  | listen (a : ℕ) (backlog : Int)
  | connect (a : ℕ) (nonblock route ready : Bool) (rand : BitVec 32) (obtained : ℕ)
  | own (a : ℕ) (call : OwnCall)
  | segment (a : ℕ) (ipv6 ready : Bool) (tcp : TCPHeader) (payload : List UInt8)
      (rand : BitVec 32) (child : Option ℕ)
  | accept (l : ℕ) (opened : Bool)
  | close (a : ℕ) (ready : ℕ → Bool)

/-- A block `kmalloc` may return. -/
def TcpSys.unused (s : TcpSys) (a : ℕ) : Bool := a ≠ 0 ∧ s.table a = none

/-- The call of a function for a socket that has an open file. -/
def TcpSys.onFile (s : TcpSys) (a : ℕ) (f : TcpSocket → TcpSys) : TcpSys :=
  match s.table a with
  | some e => if a ∈ s.files then f e else s
  | none => s

def tcpStep (s : TcpSys) : TcpAct → TcpSys
  | .socket a => if s.unused a then { s.set a {} with files := a :: s.files } else s
  | .bind a port obtained => s.onFile a fun e => auTCPBind s a e port obtained
  | .listen a backlog => s.onFile a fun e => auTCPListenOn s a e backlog
  | .connect a nonblock route ready rand obtained =>
    s.onFile a fun e => auTCPConnectTo s a e nonblock route ready rand obtained
  | .own a call => s.onFile a fun e => s.set a { e with sock := call.apply e.sock }
  | .segment a ipv6 ready tcp payload rand child =>
    match s.table a with
    | some e =>
      if a ∈ s.tcpSocketList then
        tcpSegment s a e ipv6 ready tcp payload rand (child.filter s.unused)
      else s
    | none => s
  | .accept l opened => s.onFile l fun e => auTCPAccept s l e opened
  | .close a ready => s.onFile a fun e => auTCPFileClose s a e ready

/-- The connection waits in the backlog of the listener: its handshake goes on, or is done and
it was not returned by `AuTCPAccept`. -/
def Waiting (s : TcpSys) (l c : ℕ) : Prop :=
  ∃ e e', s.table c = some e ∧ s.table l = some e' ∧ e.parent = l ∧ c ∉ s.files ∧
    (e.sock.pcb.state = .synReceived ∨ c ∈ e'.acceptq.getD [])

/-- The close of a listener resets the connections that wait in its backlog, and does nothing
to any other socket that is not closed already. -/
def CloseRight (s : TcpSys) (l : ℕ) (ready : ℕ → Bool) : Prop :=
  ∀ c e, c ≠ l → s.table c = some e →
    ∃ e', (tcpStep s (.close l ready)).table c = some e' ∧
      (Waiting s l c → e'.sock.pcb.state = .closed) ∧
      (¬ Waiting s l c → e.sock.pcb.state ≠ .closed → e' = e)

/-- Every parent pointer is to a socket that was not freed. -/
def NoDangling (s : TcpSys) : Prop :=
  ∀ c e, s.table c = some e → e.parent ≠ 0 → s.table e.parent ≠ none

/-- The socket is listening and its owner has not closed it. -/
def Listening (s : TcpSys) (l : ℕ) : Prop :=
  l ∈ s.files ∧ ∃ e, s.table l = some e ∧ e.sock.pcb.state = .listen

/-- The children that are still connected wait in the backlog: none was accepted. -/
def NoneAccepted (s : TcpSys) (l : ℕ) : Prop :=
  ∀ c ∈ s.tcpSocketList, c ≠ l → ∀ e, s.table c = some e → e.parent = l →
    e.sock.pcb.state = .closed ∨ Waiting s l c

/-- No other socket has `a` as its parent. -/
def Childless (s : TcpSys) (a : ℕ) : Prop :=
  ∀ c ∈ s.tcpSocketList, c ≠ a → s.parentOf c ≠ a

instance (s : TcpSys) (a : ℕ) : Decidable (Childless s a) :=
  inferInstanceAs (Decidable (∀ c ∈ _, _ → _))

/-- A socket is closed when it is the parent of none. -/
def CloseOk (s : TcpSys) : TcpAct → Prop
  | .close a _ => a ∈ s.files → Childless s a
  | _ => True

instance (s : TcpSys) : DecidablePred (CloseOk s) := fun act => by
  cases act <;> unfold CloseOk <;> infer_instance

end Xeneva.Net
