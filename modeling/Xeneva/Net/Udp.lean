import Xeneva.Base.Run

/-!
# UDP sockets

The list of the sockets that have a port, and what waits in them. A packet is memory from its first
byte on; a copy of it that is waiting is followed by what the heap holds. An `AuNetRxPoll` is the
packets that it hands up, and `kmalloc` is taken to have memory.
-/

namespace Xeneva.Net.Udp

open Base Function

/-- A field of two bytes in network order. -/
def be16 (d : ℕ → UInt8) (i : ℕ) : ℕ := (d i).toNat * 256 + (d (i + 1)).toNat

/-- A copy that waits, beside the packet it was made of and the number of that packet. -/
structure Entry where
  id : ℕ
  packet : ℕ → UInt8
  data : ℕ → UInt8

structure UdpSocket where
  sessionPort : ℕ := 0
  rxstack : List Entry := []

/-- `arrived` counts the packets that came, and `got` are those that a socket has given out. -/
structure State where
  table : ℕ → Option UdpSocket := fun _ => none
  udp_socket_list : List ℕ := []
  udp_port : ℕ := 12345
  arrived : ℕ := 0
  got : ℕ → List ℕ := fun _ => []

def State.set (s : State) (a : ℕ) (e : UdpSocket) : State :=
  { s with table := update s.table a (some e) }

/-- The test of the walks over the list. -/
def State.hasPort (s : State) (port a : ℕ) : Bool :=
  match s.table a with
  | some e => e.sessionPort = port
  | none => false

def udpGetPort (s : State) (a : ℕ) (e : UdpSocket) : State :=
  let s := { s with udp_port := s.udp_port + 1 }
  let s := s.set a { e with sessionPort := s.udp_port % 2 ^ 16 }
  { s with udp_socket_list := s.udp_socket_list ++ [a] }

/-- `addr` is the port of the address, if it has the form of one. -/
def auUDPBind (s : State) (a : ℕ) (e : UdpSocket) (addr : Option ℕ) : State × ℤ :=
  if e.sessionPort ≠ 0 then (s, -1)
  else
    match addr with
    | none => (s, -1)
    | some port =>
      if s.udp_socket_list.any (s.hasPort port) then (s, -1)
      else
        let s := s.set a { e with sessionPort := port }
        ({ s with udp_socket_list := s.udp_socket_list ++ [a] }, 0)

/-- The source port of the datagram that is sent, if there is a route for it. -/
def auUDPSend (s : State) (a : ℕ) (e : UdpSocket) (routed : Bool) : State × Option ℕ :=
  let s := if e.sessionPort = 0 then udpGetPort s a e else s
  (s, if routed then (s.table a).map UdpSocket.sessionPort else none)

def auUDPFileClose (s : State) (a : ℕ) : State :=
  { s with udp_socket_list := s.udp_socket_list.erase a, table := update s.table a none }

/-- `heap` is what lies behind the copy. -/
def auSocketAdd (s : State) (a : ℕ) (packet heap : ℕ → UInt8) (sz : ℕ) : State :=
  match s.table a with
  | none => s
  | some e => s.set a { e with
      rxstack := e.rxstack ++ [⟨s.arrived, packet, fun i => if i < sz then packet i else heap i⟩] }

def deliver (s : State) (packet heap : ℕ → UInt8) (dest_port sz : ℕ) : State :=
  let t := match s.udp_socket_list.find? (s.hasPort dest_port) with
    | some a => auSocketAdd s a packet heap sz
    | none => s
  { t with arrived := s.arrived + 1 }

def udpHandlePacket (s : State) (packet heap : ℕ → UInt8) : State :=
  deliver s packet heap (be16 packet 22) (be16 packet 2)

def udpHandlePacket6 (s : State) (packet heap : ℕ → UInt8) : State :=
  deliver s packet heap (be16 packet 42) (40 + be16 packet 4)

/-- The version in the first byte. -/
def isV6 (d : ℕ → UInt8) : Prop := (d 0).toNat / 16 = 6

instance (d : ℕ → UInt8) : Decidable (isV6 d) := inferInstanceAs (Decidable (_ = _))

/-- What is returned, how many bytes are written into the buffer, and which. -/
structure Received where
  ret : ℤ
  wrote : ℕ
  byte : ℕ → UInt8

/-- What `AuUDPReceive` does with a copy, for a buffer of `len` bytes. -/
def copyOut (d : ℕ → UInt8) (len : ℕ) : Received :=
  if isV6 d then
    let n := be16 d 4 - 8
    let n := if n > len then len else n
    ⟨n, n, fun i => d (48 + i)⟩
  else
    -- the length of the `memcpy` is a `size_t`
    ⟨be16 d 2 - 28, (be16 d 2 + 2 ^ 64 - 28) % 2 ^ 64, fun i => d (28 + i)⟩

def auUDPReceive (s : State) (a : ℕ) (e : UdpSocket) (len : ℕ) : State × Option Received :=
  if e.sessionPort = 0 then (s, none)
  else
    match e.rxstack with
    | [] => (s, none)
    | x :: rest =>
      ({ s.set a { e with rxstack := rest } with got := update s.got a (s.got a ++ [x.id]) },
        some (copyOut x.data len))

/-- A socket is a number that no other open socket has. -/
inductive Op
  | create (a : ℕ)
  | bind (a : ℕ) (addr : Option ℕ)
  | send (a : ℕ) (routed : Bool)
  | close (a : ℕ)
  | packet4 (packet heap : ℕ → UInt8)
  | packet6 (packet heap : ℕ → UInt8)
  | receive (a len : ℕ)

structure Out where
  srcPort : Option ℕ := none
  received : Option Received := none

def exec (s : State) : Op → State × Out
  | .create a =>
    match s.table a with
    | some _ => (s, {})
    | none => (s.set a {}, {})
  | .bind a addr =>
    match s.table a with
    | none => (s, {})
    | some e => ((auUDPBind s a e addr).1, {})
  | .send a routed =>
    match s.table a with
    | none => (s, {})
    | some e => let r := auUDPSend s a e routed; (r.1, { srcPort := r.2 })
  | .close a => (auUDPFileClose s a, {})
  | .packet4 packet heap => (udpHandlePacket s packet heap, {})
  | .packet6 packet heap => (udpHandlePacket6 s packet heap, {})
  | .receive a len =>
    match s.table a with
    | none => (s, {})
    | some e => let r := auUDPReceive s a e len; (r.1, { received := r.2 })

def step (s : State) (op : Op) : State := (exec s op).1

/-! ## Datagrams -/

/-- The length of the IP header. -/
def headerLen (d : ℕ → UInt8) : ℕ := if isV6 d then 40 else 4 * ((d 0).toNat % 16)

/-- How many bytes follow the IP header. -/
def ipPayloadLen (d : ℕ → UInt8) : ℕ := if isV6 d then be16 d 4 else be16 d 2 - headerLen d

def destPort (d : ℕ → UInt8) : ℕ := be16 d (headerLen d + 2)

/-- The length field of the UDP header. -/
def udpLength (d : ℕ → UInt8) : ℕ := be16 d (headerLen d + 4)

/-- How many bytes follow the UDP header, as far as both lengths reach. -/
def payloadLen (d : ℕ → UInt8) : ℕ := min (udpLength d) (ipPayloadLen d) - 8

/-- An IPv4 header has five words at least. -/
def IsDatagram (d : ℕ → UInt8) : Prop := isV6 d ∨ (d 0).toNat / 16 = 4 ∧ 5 ≤ (d 0).toNat % 16

/-- What a receive is meant to do. -/
structure Right (d : ℕ → UInt8) (len : ℕ) (r : Received) : Prop where
  ret : r.ret = min (payloadLen d) len
  wrote : r.wrote = min (payloadLen d) len
  byte : ∀ i < r.wrote, r.byte i = d (headerLen d + 8 + i)

/-- The lengths for which it does: over IPv6 the length of the UDP header reaches to the end, or
further than the buffer; over IPv4 there are no options, the packet holds both headers, the length
of the UDP header reaches to the end, and so does the buffer. -/
def RecvFits (d : ℕ → UInt8) (len : ℕ) : Prop :=
  if isV6 d then
    ipPayloadLen d ≤ udpLength d ∨ ipPayloadLen d ≤ 8 ∨ len ≤ udpLength d - 8
  else
    be16 d 2 = 28 ∨ headerLen d = 20 ∧ 28 < be16 d 2 ∧ be16 d 2 - 20 ≤ udpLength d ∧
      be16 d 2 - 28 ≤ len

instance (d : ℕ → UInt8) (len : ℕ) : Decidable (RecvFits d len) :=
  inferInstanceAs (Decidable (ite _ _ _))

theorem be16_lt (d : ℕ → UInt8) (i : ℕ) : be16 d i < 2 ^ 16 := by
  have h1 := (d i).toNat_lt
  have h2 := (d (i + 1)).toNat_lt
  rw [be16]
  omega

/-- A receive is right for these lengths only. -/
theorem right_copyOut_iff {d : ℕ → UInt8} (hd : IsDatagram d) (len : ℕ) :
    Right d len (copyOut d len) ↔ RecvFits d len := by
  by_cases h6 : isV6 d
  · have hn : copyOut d len = ⟨↑(min (be16 d 4 - 8) len), min (be16 d 4 - 8) len,
        fun i => d (48 + i)⟩ := by
      have hmin : (if be16 d 4 - 8 > len then len else be16 d 4 - 8) = min (be16 d 4 - 8) len := by
        split_ifs <;> omega
      rw [copyOut, if_pos h6]
      dsimp only
      rw [hmin]
    have hh : headerLen d = 40 := if_pos h6
    have hp : ipPayloadLen d = be16 d 4 := if_pos h6
    rw [hn, RecvFits, if_pos h6, hp]
    constructor
    · intro h
      have hw := h.wrote
      rw [payloadLen, hp] at hw
      dsimp only at hw
      omega
    · intro h
      have hw : min (be16 d 4 - 8) len = min (payloadLen d) len := by
        rw [payloadLen, hp]
        omega
      refine ⟨congrArg _ hw, hw, fun i _ => ?_⟩
      rw [hh]
  · have hlt := be16_lt d 2
    have h4 := hd.resolve_left h6
    have hh : headerLen d = 4 * ((d 0).toNat % 16) := if_neg h6
    have hp : ipPayloadLen d = be16 d 2 - headerLen d := if_neg h6
    rw [copyOut, if_neg h6, RecvFits, if_neg h6]
    constructor
    · intro h
      have hw := h.wrote
      have hr := h.ret
      rw [payloadLen, hp] at hw hr
      dsimp only at hw hr
      omega
    · intro h
      have hw : be16 d 2 - 28 = min (payloadLen d) len := by
        rw [payloadLen, hp]
        omega
      have hwrote : (be16 d 2 + 2 ^ 64 - 28) % 2 ^ 64 = be16 d 2 - 28 := by omega
      refine ⟨?_, hwrote.trans hw, fun i hi => ?_⟩
      · rw [← hw]
        dsimp only
        omega
      · dsimp only at hi ⊢
        rw [hwrote] at hi
        have h20 : headerLen d = 20 := by omega
        rw [h20]

/-- How many bytes of a packet are stored. -/
def storedLen (d : ℕ → UInt8) : ℕ := if isV6 d then 40 + be16 d 4 else be16 d 2

/-- A copy has the bytes that are stored. -/
structure Entry.Copied (x : Entry) : Prop where
  datagram : IsDatagram x.packet
  byte : ∀ i < storedLen x.packet, x.data i = x.packet i

theorem be16_congr {d e : ℕ → UInt8} {n i : ℕ} (h : ∀ j < n, d j = e j) (hi : i + 1 < n) :
    be16 d i = be16 e i := by
  rw [be16, be16, h i (by omega), h (i + 1) hi]

theorem isV6_congr {d e : ℕ → UInt8} {n : ℕ} (h : ∀ j < n, d j = e j) (hn : 0 < n) :
    isV6 d ↔ isV6 e := by
  rw [isV6, isV6, h 0 hn]

/-- A receive from a copy is one from the packet. -/
theorem right_of_copied {x : Entry} (hx : x.Copied) {len : ℕ} (hf : RecvFits x.packet len) :
    Right x.packet len (copyOut x.data len) := by
  have hr := (right_copyOut_iff hx.datagram len).2 hf
  have hb := hx.byte
  by_cases h6 : isV6 x.packet
  · rw [storedLen, if_pos h6] at hb
    have h6' := (isV6_congr hb (by omega)).2 h6
    have hl := be16_congr (i := 4) hb (by omega)
    rw [copyOut, if_pos h6] at hr
    rw [copyOut, if_pos h6', hl]
    dsimp only at hr ⊢
    refine ⟨hr.ret, hr.wrote, fun i hi => ?_⟩
    rw [← hr.byte i hi]
    apply hb
    dsimp only at hi
    split_ifs at hi <;> omega
  · rw [storedLen, if_neg h6] at hb
    have hlt := be16_lt x.packet 2
    have hlong : 28 ≤ be16 x.packet 2 := by
      rw [RecvFits, if_neg h6] at hf
      omega
    have h6' := mt (isV6_congr hb (by omega)).1 h6
    have hl := be16_congr (i := 2) hb (by omega)
    rw [copyOut, if_neg h6] at hr
    rw [copyOut, if_neg h6', hl]
    refine ⟨hr.ret, hr.wrote, fun i hi => ?_⟩
    rw [← hr.byte i hi]
    apply hb
    dsimp only at hi
    omega

def State.waiting (s : State) (a : ℕ) : List Entry :=
  match s.table a with
  | some e => e.rxstack
  | none => []

/-- The numbers of the packets that a socket has had or still has. -/
def State.ids (s : State) (a : ℕ) : List ℕ := s.got a ++ (s.waiting a).map Entry.id

structure Owns (s : State) (a port : ℕ) : Prop where
  mem : a ∈ s.udp_socket_list
  port : s.hasPort port a

def OnePort (s : State) : Prop := ∀ a b port, Owns s a port → Owns s b port → a = b

/-- A packet goes to one socket at most, and a socket has its packets in the order in which they
came. -/
structure InOrder (s : State) : Prop where
  sorted : ∀ a, (s.ids a).Pairwise (· < ·)
  once : ∀ a b, ∀ i ∈ s.ids a, i ∈ s.ids b → a = b

/-- What is meant to become of a packet. -/
structure Delivered (s t : State) (packet : ℕ → UInt8) : Prop where
  owner : ∀ a, Owns s a (destPort packet) →
    ∃ x, x.packet = packet ∧ x.id = s.arrived ∧ t.waiting a = s.waiting a ++ [x]
  other : ∀ a, ¬ Owns s a (destPort packet) → t.waiting a = s.waiting a

/-- What is meant to become of the first packet that waits. -/
def Drawn (s t : State) (a len : ℕ) (received : Option Received) : Prop :=
  match s.waiting a with
  | [] => received = none ∧ t.waiting a = []
  | x :: rest => t.waiting a = rest ∧ t.got a = s.got a ++ [x.id] ∧
    ∃ r, received = some r ∧ Right x.packet len r

def Effect (s : State) (op : Op) : Prop :=
  match op with
  | .create _ | .bind _ _ => (step s op).waiting = s.waiting
  | .send a _ => (step s op).waiting = s.waiting ∧
    ∀ port, (exec s op).2.srcPort = some port → Owns (step s op) a port
  | .close a => ∀ b ≠ a, (step s op).waiting b = s.waiting b
  | .packet4 packet _ | .packet6 packet _ => Delivered s (step s op) packet
  | .receive a len => Drawn s (step s op) a len (exec s op).2.received ∧
    ∀ b ≠ a, (step s op).waiting b = s.waiting b

/-- What is claimed of a step. -/
structure Fine (s : State) (op : Op) : Prop where
  ports : OnePort (step s op)
  inOrder : InOrder (step s op)
  effect : Effect s op

/-- What comes in is a datagram of its family. -/
def Op.Proper : Op → Prop
  | .packet4 packet _ => (packet 0).toNat / 16 = 4 ∧ 5 ≤ (packet 0).toNat % 16
  | .packet6 packet _ => isV6 packet
  | _ => True

/-- A bind names a port, a send that assigns one finds it free, an IPv4 packet has no options, and
a receive has a length that fits. -/
def Fits (s : State) : Op → Prop
  | .bind _ addr => addr ≠ some 0
  | .send a _ => s.hasPort 0 a → (s.udp_port + 1) % 2 ^ 16 ≠ 0 ∧
    ∀ b ∈ s.udp_socket_list, ¬ s.hasPort ((s.udp_port + 1) % 2 ^ 16) b
  | .packet4 packet _ => headerLen packet = 20
  | .receive a len => ∀ x ∈ (s.waiting a).head?, RecvFits x.packet len
  | _ => True

/-! ## Runs -/

/-- The sockets with a port are the ones in the list. -/
structure Ports (s : State) : Prop where
  nodup : s.udp_socket_list.Nodup
  listed : ∀ a ∈ s.udp_socket_list, ∃ e, s.table a = some e ∧ e.sessionPort ≠ 0
  unlisted : ∀ a e, s.table a = some e → a ∉ s.udp_socket_list →
    e.sessionPort = 0 ∧ e.rxstack = []
  one : OnePort s

structure Queues (s : State) : Prop where
  copied : ∀ a, ∀ x ∈ s.waiting a, x.Copied
  inOrder : InOrder s
  arrived : ∀ a, ∀ i ∈ s.ids a, i < s.arrived

structure Inv (s : State) : Prop where
  ports : Ports s
  queues : Queues s

theorem waiting_set (s : State) (a : ℕ) (e : UdpSocket) :
    (s.set a e).waiting = update s.waiting a e.rxstack := by
  funext b
  by_cases h : b = a
  · subst h
    simp [State.waiting, State.set]
  · simp [State.waiting, State.set, h]

theorem hasPort_set_of_ne {s : State} {a b : ℕ} (h : b ≠ a) (e : UdpSocket) (port : ℕ) :
    (s.set a e).hasPort port b = s.hasPort port b := by
  simp [State.hasPort, State.set, h]

theorem hasPort_iff {s : State} {a : ℕ} {e : UdpSocket} (h : s.table a = some e) (port : ℕ) :
    s.hasPort port a ↔ e.sessionPort = port := by
  simp [State.hasPort, h]

theorem waiting_eq {s : State} {a : ℕ} {e : UdpSocket} (h : s.table a = some e) :
    s.waiting a = e.rxstack := by
  rw [State.waiting, h]

/-- Packets may be taken away. -/
theorem Queues.of_sublist {s t : State} (h : Queues s)
    (hw : ∀ a, ∀ x ∈ t.waiting a, x ∈ s.waiting a)
    (hi : ∀ a, List.Sublist (t.ids a) (s.ids a)) (hn : s.arrived ≤ t.arrived) : Queues t := by
  refine ⟨?_, ⟨?_, ?_⟩, ?_⟩
  · intro a x hx
    exact h.copied a x (hw a x hx)
  · intro a
    exact (h.inOrder.sorted a).sublist (hi a)
  · intro a b i ha hb
    exact h.inOrder.once a b i ((hi a).subset ha) ((hi b).subset hb)
  · intro a i ha
    exact (h.arrived a i ((hi a).subset ha)).trans_le hn

theorem Queues.congr {s t : State} (h : Queues s) (hw : t.waiting = s.waiting) (hg : t.got = s.got)
    (hn : s.arrived ≤ t.arrived) : Queues t := by
  apply h.of_sublist _ _ hn
  · intro a x hx
    exact hw ▸ hx
  · intro a
    rw [State.ids, State.ids, hw, hg]

/-- A socket of the list may have its queue replaced. -/
theorem Ports.refill {s t : State} (h : Ports s) {a : ℕ} {e : UdpSocket} (he : s.table a = some e)
    (hmem : a ∈ s.udp_socket_list) {q : List Entry}
    (ht : t.table = update s.table a (some { e with rxstack := q }))
    (hl : t.udp_socket_list = s.udp_socket_list) :
    Ports t ∧ t.waiting = update s.waiting a q := by
  have hself : t.table a = some { e with rxstack := q } := by rw [ht, update_self]
  have hother : ∀ b, b ≠ a → t.table b = s.table b := by
    intro b hb
    rw [ht, update_of_ne hb]
  have hold : ∀ b port, Owns t b port → Owns s b port := by
    intro b port hb
    refine ⟨hl ▸ hb.mem, ?_⟩
    have hp := hb.port
    by_cases hba : b = a
    · rw [hba, hasPort_iff hself] at hp
      rw [hba, hasPort_iff he]
      exact hp
    · rw [State.hasPort, hother b hba] at hp
      exact hp
  refine ⟨⟨?_, ?_, ?_, ?_⟩, ?_⟩
  · rw [hl]
    exact h.nodup
  · intro b hb
    rw [hl] at hb
    obtain ⟨e', he', hne⟩ := h.listed b hb
    by_cases hba : b = a
    · rw [hba, he] at he'
      cases he'
      rw [hba]
      exact ⟨_, hself, hne⟩
    · exact ⟨e', (hother b hba).trans he', hne⟩
  · intro b e' he' hb
    rw [hl] at hb
    have hba : b ≠ a := by
      intro hba
      exact hb (hba ▸ hmem)
    exact h.unlisted b e' ((hother b hba).symm.trans he') hb
  · intro b c port hb hc
    exact h.one b c port (hold b port hb) (hold c port hc)
  · funext b
    by_cases hba : b = a
    · rw [hba, update_self, waiting_eq hself]
    · rw [update_of_ne hba, State.waiting, hother b hba, State.waiting]

/-- What is put in the list gets a port. -/
def enlist (s : State) (a : ℕ) (e : UdpSocket) (port : ℕ) : State :=
  { s.set a { e with sessionPort := port } with udp_socket_list := s.udp_socket_list ++ [a] }

theorem waiting_enlist {s : State} {a : ℕ} {e : UdpSocket} (h : s.table a = some e) (port : ℕ) :
    (enlist s a e port).waiting = s.waiting := by
  calc (enlist s a e port).waiting = update s.waiting a e.rxstack := waiting_set s a _
    _ = s.waiting := by rw [← waiting_eq h, update_eq_self]

theorem Inv.enlist {s : State} (h : Inv s) {a : ℕ} {e : UdpSocket} (he : s.table a = some e)
    (h0 : e.sessionPort = 0) {port : ℕ} (hport : port ≠ 0)
    (hfree : ∀ b ∈ s.udp_socket_list, ¬ s.hasPort port b) : Inv (enlist s a e port) := by
  have hnot : a ∉ s.udp_socket_list := by
    intro hmem
    obtain ⟨e', he', hne⟩ := h.ports.listed a hmem
    rw [he] at he'
    cases he'
    exact hne h0
  have htable : ∀ b, b ≠ a → (Udp.enlist s a e port).table b = s.table b := by
    intro b hb
    exact update_of_ne hb _ _
  have hself : (Udp.enlist s a e port).table a = some { e with sessionPort := port } :=
    update_self _ _ _
  have hold : ∀ b p, b ≠ a → Owns (Udp.enlist s a e port) b p → Owns s b p := by
    intro b p hb ho
    have hmem := ho.mem
    refine ⟨?_, ?_⟩
    · rcases List.mem_append.1 hmem with hm | hm
      · exact hm
      · exact absurd (List.mem_singleton.1 hm) hb
    · rw [← hasPort_set_of_ne hb]
      exact ho.port
  have hnew : ∀ p, Owns (Udp.enlist s a e port) a p → p = port := by
    intro p ho
    exact ((hasPort_iff hself p).1 ho.port).symm
  have hclash : ∀ b p, b ≠ a → Owns (Udp.enlist s a e port) b p → p ≠ port := by
    intro b p hb ho hp
    have hs := hold b p hb ho
    exact hfree b hs.mem (hp ▸ hs.port)
  refine ⟨⟨?_, ?_, ?_, ?_⟩, h.queues.congr (waiting_enlist he port) rfl le_rfl⟩
  · exact List.nodup_append.2 ⟨h.ports.nodup, List.nodup_singleton a, by
      intro b hb c hc
      rw [List.mem_singleton.1 hc]
      exact ne_of_mem_of_not_mem hb hnot⟩
  · intro b hb
    by_cases hba : b = a
    · subst hba
      exact ⟨_, hself, hport⟩
    · rw [htable b hba]
      rcases List.mem_append.1 hb with hm | hm
      · exact h.ports.listed b hm
      · exact absurd (List.mem_singleton.1 hm) hba
  · intro b e' he' hb
    have hba : b ≠ a := by
      intro hba
      exact hb (List.mem_append.2 (.inr (List.mem_singleton.2 hba)))
    rw [htable b hba] at he'
    exact h.ports.unlisted b e' he' fun hm => hb (List.mem_append_left _ hm)
  · intro b c p hb hc
    by_cases hba : b = a
    · by_cases hca : c = a
      · rw [hba, hca]
      · exact absurd (hnew p (hba ▸ hb)) (hclash c p hca hc)
    · by_cases hca : c = a
      · exact absurd (hnew p (hca ▸ hc)) (hclash b p hba hb)
      · exact h.ports.one b c p (hold b p hba hb) (hold c p hca hc)

theorem inv_start : Inv {} := by
  have hids : ∀ a, ({} : State).ids a = [] := fun _ => rfl
  refine ⟨⟨List.nodup_nil, ?_, ?_, ?_⟩, ⟨?_, ⟨?_, ?_⟩, ?_⟩⟩
  · intro a ha
    cases ha
  · intro a e he
    cases he
  · intro a b port ha
    cases ha.mem
  · intro a x hx
    cases hx
  · intro a
    rw [hids]
    exact List.Pairwise.nil
  · intro a b i hi
    rw [hids] at hi
    cases hi
  · intro a i hi
    rw [hids] at hi
    cases hi

theorem Ports.owner {s : State} (h : Ports s) {a : ℕ} {e : UdpSocket} (he : s.table a = some e)
    (h0 : e.sessionPort ≠ 0) : Owns s a e.sessionPort := by
  refine ⟨?_, (hasPort_iff he _).2 rfl⟩
  by_contra hn
  exact h0 (h.unlisted a e he hn).1

/-- The walk over the list finds the owner. -/
theorem find_hasPort_iff {s : State} (h : OnePort s) (a port : ℕ) :
    s.udp_socket_list.find? (s.hasPort port) = some a ↔ Owns s a port := by
  have hfound : ∀ b, s.udp_socket_list.find? (s.hasPort port) = some b → Owns s b port := by
    intro b hb
    exact ⟨List.mem_of_find?_eq_some hb, List.find?_some hb⟩
  constructor
  · exact hfound a
  · intro ho
    have hsome : (s.udp_socket_list.find? (s.hasPort port)).isSome :=
      List.find?_isSome.2 ⟨a, ho.mem, ho.port⟩
    obtain ⟨b, hb⟩ := Option.isSome_iff_exists.1 hsome
    rw [hb, h b a port (hfound b hb) ho]

theorem Inv.create {s : State} (h : Inv s) (a : ℕ) :
    Inv (step s (.create a)) ∧ (step s (.create a)).waiting = s.waiting := by
  cases ht : s.table a with
  | some e =>
    have hs : step s (.create a) = s := by simp only [step, exec, ht]
    rw [hs]
    exact ⟨h, rfl⟩
  | none =>
    have hs : step s (.create a) = s.set a {} := by simp only [step, exec, ht]
    have hw : (s.set a {}).waiting = s.waiting := by
      have h0 : s.waiting a = [] := by rw [State.waiting, ht]
      rw [waiting_set, ← h0, update_eq_self]
    have hne : ∀ b ∈ s.udp_socket_list, b ≠ a := by
      intro b hb hba
      obtain ⟨e, he, -⟩ := h.ports.listed b hb
      rw [hba, ht] at he
      cases he
    have hold : ∀ b p, Owns (s.set a {}) b p → Owns s b p := by
      intro b p ho
      have hb := hne b ho.mem
      exact ⟨ho.mem, by rw [← hasPort_set_of_ne hb]; exact ho.port⟩
    rw [hs]
    refine ⟨⟨⟨h.ports.nodup, ?_, ?_, ?_⟩, h.queues.congr hw rfl le_rfl⟩, hw⟩
    · intro b hb
      have htb : (s.set a {}).table b = s.table b := update_of_ne (hne b hb) _ _
      rw [htb]
      exact h.ports.listed b hb
    · intro b e he hb
      by_cases hba : b = a
      · subst hba
        have hself : (s.set b {}).table b = some {} := update_self _ _ _
        rw [hself] at he
        cases he
        exact ⟨rfl, rfl⟩
      · have htb : (s.set a {}).table b = s.table b := update_of_ne hba _ _
        rw [htb] at he
        exact h.ports.unlisted b e he hb
    · intro b c p hb hc
      exact h.ports.one b c p (hold b p hb) (hold c p hc)

theorem Inv.bind {s : State} (h : Inv s) (a : ℕ) {addr : Option ℕ} (hf : addr ≠ some 0) :
    Inv (step s (.bind a addr)) ∧ (step s (.bind a addr)).waiting = s.waiting := by
  have hsame : step s (.bind a addr) = s → Inv (step s (.bind a addr)) ∧
      (step s (.bind a addr)).waiting = s.waiting := by
    intro hs
    rw [hs]
    exact ⟨h, rfl⟩
  cases ht : s.table a with
  | none =>
    apply hsame
    simp only [step, exec, ht]
  | some e =>
    have hs : step s (.bind a addr) = (auUDPBind s a e addr).1 := by simp only [step, exec, ht]
    by_cases h0 : e.sessionPort = 0
    · cases addr with
      | none =>
        apply hsame
        rw [hs]
        simp [auUDPBind, h0]
      | some port =>
        by_cases hany : s.udp_socket_list.any (s.hasPort port)
        · apply hsame
          rw [hs]
          simp [auUDPBind, hany]
        · have hs' : step s (.bind a (some port)) = Udp.enlist s a e port := by
            rw [hs, auUDPBind, if_neg (not_not.2 h0)]
            dsimp only
            rw [if_neg hany]
            rfl
          have hport : port ≠ 0 := by
            intro hp
            exact hf (congrArg some hp)
          rw [hs']
          refine ⟨h.enlist ht h0 hport ?_, waiting_enlist ht port⟩
          intro b hb hbp
          exact hany (List.any_eq_true.2 ⟨b, hb, hbp⟩)
    · apply hsame
      rw [hs]
      simp [auUDPBind, h0]

theorem Inv.send {s : State} (h : Inv s) (a : ℕ) (routed : Bool) (hf : Fits s (.send a routed)) :
    Inv (step s (.send a routed)) ∧ Effect s (.send a routed) := by
  cases ht : s.table a with
  | none =>
    have he : exec s (.send a routed) = (s, {}) := by simp only [exec, ht]
    rw [Effect, step, he]
    refine ⟨h, rfl, fun port hp => ?_⟩
    cases hp
  | some e =>
    have he : exec s (.send a routed) =
        ((auUDPSend s a e routed).1, { srcPort := (auUDPSend s a e routed).2 }) := by
      simp only [exec, ht]
    -- the state after the port is assigned, if it has to be
    have hnext : ∃ e', (auUDPSend s a e routed).1.table a = some e' ∧ e'.sessionPort ≠ 0 ∧
        Inv (auUDPSend s a e routed).1 ∧ (auUDPSend s a e routed).1.waiting = s.waiting := by
      by_cases h0 : e.sessionPort = 0
      · obtain ⟨hport, hfree⟩ := hf ((hasPort_iff ht 0).2 h0)
        have hs : (auUDPSend s a e routed).1 = Udp.enlist { s with udp_port := s.udp_port + 1 } a e
            ((s.udp_port + 1) % 2 ^ 16) := by
          rw [auUDPSend, if_pos h0]
          rfl
        have hq : Inv { s with udp_port := s.udp_port + 1 } :=
          ⟨⟨h.ports.nodup, h.ports.listed, h.ports.unlisted, fun b c p hb hc =>
            h.ports.one b c p ⟨hb.mem, hb.port⟩ ⟨hc.mem, hc.port⟩⟩, h.queues.congr rfl rfl le_rfl⟩
        rw [hs]
        exact ⟨_, update_self _ _ _, hport, hq.enlist ht h0 hport hfree, waiting_enlist ht _⟩
      · have hs : (auUDPSend s a e routed).1 = s := by rw [auUDPSend, if_neg h0]
        rw [hs]
        exact ⟨e, ht, h0, h, rfl⟩
    obtain ⟨e', ht', h0', hinv, hw⟩ := hnext
    rw [Effect, step, he]
    refine ⟨hinv, hw, fun port hp => ?_⟩
    have hp' : port = e'.sessionPort := by
      rw [auUDPSend] at ht' hp
      dsimp only at ht' hp
      rw [ht'] at hp
      split_ifs at hp
      cases hp
      rfl
    rw [hp']
    exact hinv.ports.owner ht' h0'

theorem Inv.close {s : State} (h : Inv s) (a : ℕ) :
    Inv (step s (.close a)) ∧ Effect s (.close a) := by
  have hs : step s (.close a) = auUDPFileClose s a := rfl
  have htable : ∀ b, b ≠ a → (auUDPFileClose s a).table b = s.table b := by
    intro b hb
    exact update_of_ne hb _ _
  have hnone : (auUDPFileClose s a).table a = none := update_self _ _ _
  have hmem : ∀ b, b ∈ (auUDPFileClose s a).udp_socket_list ↔ b ≠ a ∧ b ∈ s.udp_socket_list := by
    intro b
    exact h.ports.nodup.mem_erase_iff
  have hw : ∀ b ≠ a, (auUDPFileClose s a).waiting b = s.waiting b := by
    intro b hb
    rw [State.waiting, State.waiting, htable b hb]
  have hwa : (auUDPFileClose s a).waiting a = [] := by rw [State.waiting, hnone]
  have hsub : ∀ b, List.Sublist ((auUDPFileClose s a).ids b) (s.ids b) := by
    intro b
    apply List.Sublist.append_left
    by_cases hb : b = a
    · rw [hb, hwa]
      exact List.nil_sublist _
    · rw [hw b hb]
  have hold : ∀ b p, Owns (auUDPFileClose s a) b p → Owns s b p := by
    intro b p ho
    have hb := (hmem b).1 ho.mem
    have hp := ho.port
    rw [State.hasPort, htable b hb.1] at hp
    exact ⟨hb.2, hp⟩
  rw [Effect, hs]
  refine ⟨⟨⟨h.ports.nodup.erase a, ?_, ?_, ?_⟩, h.queues.of_sublist ?_ hsub le_rfl⟩, hw⟩
  · intro b hb
    rw [htable b ((hmem b).1 hb).1]
    exact h.ports.listed b ((hmem b).1 hb).2
  · intro b e he hb
    have hba : b ≠ a := by
      intro hba
      rw [hba, hnone] at he
      cases he
    rw [htable b hba] at he
    exact h.ports.unlisted b e he fun hm => hb ((hmem b).2 ⟨hba, hm⟩)
  · intro b c p hb hc
    exact h.ports.one b c p (hold b p hb) (hold c p hc)
  · intro b x hx
    by_cases hb : b = a
    · rw [hb, hwa] at hx
      cases hx
    · rw [hw b hb] at hx
      exact hx

/-- The number of a packet that comes in is greater than all that are there. -/
theorem Queues.push {s t : State} (h : Queues s) {a : ℕ} {x : Entry} (hx : x.Copied)
    (hid : x.id = s.arrived) (hw : t.waiting = update s.waiting a (s.waiting a ++ [x]))
    (hg : t.got = s.got) (hn : t.arrived = s.arrived + 1) : Queues t := by
  have hia : t.ids a = s.ids a ++ [s.arrived] := by
    rw [State.ids, hw, hg, update_self, List.map_append, ← List.append_assoc, ← hid]
    rfl
  have hib : ∀ b, b ≠ a → t.ids b = s.ids b := by
    intro b hb
    rw [State.ids, hw, hg, update_of_ne hb]
    rfl
  have hmem : ∀ b, ∀ i ∈ t.ids b, i ∈ s.ids b ∨ b = a ∧ i = s.arrived := by
    intro b i hi
    by_cases hb : b = a
    · rw [hb, hia, List.mem_append, List.mem_singleton] at hi
      rw [hb]
      exact hi.imp_right fun h => ⟨rfl, h⟩
    · rw [hib b hb] at hi
      exact .inl hi
  refine ⟨?_, ⟨?_, ?_⟩, ?_⟩
  · intro b y hy
    by_cases hb : b = a
    · rw [hb, hw, update_self, List.mem_append, List.mem_singleton] at hy
      rcases hy with hy | hy
      · exact h.copied a y hy
      · exact hy ▸ hx
    · rw [hw, update_of_ne hb] at hy
      exact h.copied b y hy
  · intro b
    by_cases hb : b = a
    · rw [hb, hia]
      refine List.pairwise_append.2 ⟨h.inOrder.sorted a, List.pairwise_singleton _ _, ?_⟩
      intro i hi j hj
      rw [List.mem_singleton.1 hj]
      exact h.arrived a i hi
    · rw [hib b hb]
      exact h.inOrder.sorted b
  · intro b c i hb hc
    rcases hmem b i hb with hsb | ⟨hba, hi⟩
    · rcases hmem c i hc with hsc | ⟨-, hi⟩
      · exact h.inOrder.once b c i hsb hsc
      · exact absurd (h.arrived b i hsb) (by omega)
    · rcases hmem c i hc with hsc | ⟨hca, -⟩
      · exact absurd (h.arrived c i hsc) (by omega)
      · rw [hba, hca]
  · intro b i hi
    rw [hn]
    rcases hmem b i hi with hi | ⟨-, hi⟩
    · exact (h.arrived b i hi).trans (Nat.lt_succ_self _)
    · omega

theorem Inv.deliver {s : State} (h : Inv s) {packet : ℕ → UInt8} (heap : ℕ → UInt8)
    (hd : IsDatagram packet) :
    Inv (deliver s packet heap (destPort packet) (storedLen packet)) ∧
      Delivered s (deliver s packet heap (destPort packet) (storedLen packet)) packet := by
  cases hfind : s.udp_socket_list.find? (s.hasPort (destPort packet)) with
  | none =>
    have hs : Udp.deliver s packet heap (destPort packet) (storedLen packet) =
        { s with arrived := s.arrived + 1 } := by rw [Udp.deliver, hfind]
    have hnone : ∀ a, ¬ Owns s a (destPort packet) := by
      intro a ho
      rw [← find_hasPort_iff h.ports.one, hfind] at ho
      cases ho
    rw [hs]
    refine ⟨⟨⟨h.ports.nodup, h.ports.listed, h.ports.unlisted, ?_⟩,
      h.queues.congr rfl rfl (Nat.le_succ _)⟩, ?_, ?_⟩
    · intro a b port ha hb
      exact h.ports.one a b port ⟨ha.mem, ha.port⟩ ⟨hb.mem, hb.port⟩
    · intro a ho
      exact absurd ho (hnone a)
    · intro a _
      rfl
  | some a =>
    have ho := (find_hasPort_iff h.ports.one a _).1 hfind
    obtain ⟨e, he, -⟩ := h.ports.listed a ho.mem
    let x : Entry := ⟨s.arrived, packet, fun i => if i < storedLen packet then packet i else heap i⟩
    have hs : Udp.deliver s packet heap (destPort packet) (storedLen packet) =
        { s.set a { e with rxstack := e.rxstack ++ [x] } with arrived := s.arrived + 1 } := by
      rw [Udp.deliver, hfind]
      dsimp only
      rw [auSocketAdd, he]
    have hx : x.Copied := by
      refine ⟨hd, fun i hi => ?_⟩
      exact if_pos hi
    generalize hs' : ({ s.set a { e with rxstack := e.rxstack ++ [x] } with
        arrived := s.arrived + 1 } : State) = s' at hs
    obtain ⟨hp, hw⟩ := h.ports.refill he ho.mem (t := s') (q := e.rxstack ++ [x])
      (by rw [← hs']; rfl) (by rw [← hs']; rfl)
    rw [← waiting_eq he] at hw
    rw [hs]
    refine ⟨⟨hp, h.queues.push hx rfl hw (by rw [← hs']; rfl) (by rw [← hs'])⟩, ?_, ?_⟩
    · intro b hb
      refine ⟨x, rfl, rfl, ?_⟩
      rw [h.ports.one b a _ hb ho, hw, update_self]
    · intro b hb
      have hba : b ≠ a := by
        intro hba
        exact hb (hba ▸ ho)
      rw [hw, update_of_ne hba]

/-- Without options a datagram over IPv4 is delivered by the port that it has. -/
theorem udpHandlePacket_eq (s : State) {packet : ℕ → UInt8} (heap : ℕ → UInt8)
    (hp : (Op.packet4 packet heap).Proper) (h20 : headerLen packet = 20) :
    IsDatagram packet ∧ udpHandlePacket s packet heap =
      deliver s packet heap (destPort packet) (storedLen packet) := by
  have h6 : ¬ isV6 packet := by
    rw [isV6, hp.1]
    decide
  refine ⟨.inr hp, ?_⟩
  rw [udpHandlePacket, destPort, h20, storedLen, if_neg h6]

theorem udpHandlePacket6_eq (s : State) {packet : ℕ → UInt8} (heap : ℕ → UInt8)
    (h6 : isV6 packet) : udpHandlePacket6 s packet heap =
      deliver s packet heap (destPort packet) (storedLen packet) := by
  rw [udpHandlePacket6, destPort, headerLen, if_pos h6, storedLen, if_pos h6]

theorem exec_receive {s : State} {a : ℕ} {e : UdpSocket} (ht : s.table a = some e)
    (h0 : e.sessionPort ≠ 0) {x : Entry} {rest : List Entry} (hr : e.rxstack = x :: rest)
    (len : ℕ) :
    exec s (.receive a len) = ({ s.set a { e with rxstack := rest } with
      got := update s.got a (s.got a ++ [x.id]) }, { received := some (copyOut x.data len) }) := by
  simp [exec, ht, auUDPReceive, h0, hr]

theorem Inv.receive {s : State} (h : Inv s) (a len : ℕ) (hf : Fits s (.receive a len)) :
    Inv (step s (.receive a len)) ∧ Effect s (.receive a len) := by
  have hquiet : exec s (.receive a len) = (s, {}) → s.waiting a = [] →
      Inv (step s (.receive a len)) ∧ Effect s (.receive a len) := by
    intro he hw
    rw [Effect, step, he, Drawn, hw]
    exact ⟨h, ⟨rfl, rfl⟩, fun b _ => rfl⟩
  cases ht : s.table a with
  | none =>
    apply hquiet
    · simp only [exec, ht]
    · rw [State.waiting, ht]
  | some e =>
    by_cases h0 : e.sessionPort = 0
    · apply hquiet
      · simp [exec, ht, auUDPReceive, h0]
      · have hnot : a ∉ s.udp_socket_list := by
          intro hm
          obtain ⟨e', he', hne⟩ := h.ports.listed a hm
          rw [ht] at he'
          cases he'
          exact hne h0
        rw [waiting_eq ht]
        exact (h.ports.unlisted a e ht hnot).2
    · cases hr : e.rxstack with
      | nil =>
        apply hquiet
        · simp [exec, ht, auUDPReceive, hr]
        · rw [waiting_eq ht, hr]
      | cons x rest =>
        have hwa : s.waiting a = x :: rest := by rw [waiting_eq ht, hr]
        have hx : x.Copied := h.queues.copied a x (by rw [hwa]; exact List.mem_cons_self)
        have hfit : RecvFits x.packet len := hf x (by rw [hwa]; rfl)
        have he := exec_receive ht h0 hr len
        generalize hs' : ({ s.set a { e with rxstack := rest } with
            got := update s.got a (s.got a ++ [x.id]) } : State) = s' at he
        have hmem : a ∈ s.udp_socket_list := (h.ports.owner ht h0).mem
        obtain ⟨hp, hw⟩ := h.ports.refill ht hmem (t := s') (q := rest)
          (by rw [← hs']; rfl) (by rw [← hs']; rfl)
        have hg : s'.got = update s.got a (s.got a ++ [x.id]) := by rw [← hs']
        have hn : s'.arrived = s.arrived := by rw [← hs']; rfl
        have hids : s'.ids = s.ids := by
          funext b
          rw [State.ids, State.ids, hw, hg]
          by_cases hb : b = a
          · rw [hb, update_self, update_self, hwa, List.append_assoc]
            rfl
          · rw [update_of_ne hb, update_of_ne hb]
        have hsub : ∀ b, ∀ y ∈ s'.waiting b, y ∈ s.waiting b := by
          intro b y hy
          by_cases hb : b = a
          · rw [hb, hw, update_self] at hy
            rw [hb, hwa]
            exact List.mem_cons_of_mem x hy
          · rw [hw, update_of_ne hb] at hy
            exact hy
        rw [Effect, step, he, Drawn, hwa]
        dsimp only
        refine ⟨⟨hp, h.queues.of_sublist hsub (fun b => by rw [hids]) hn.ge⟩,
          ⟨?_, ?_, _, rfl, right_of_copied hx hfit⟩, ?_⟩
        · rw [hw, update_self]
        · rw [hg, update_self]
        · intro b hb
          rw [hw, update_of_ne hb]

/-- The step rule. -/
theorem Inv.step {s : State} (h : Inv s) (op : Op) (hp : op.Proper) (hf : Fits s op) :
    Inv (step s op) ∧ Effect s op := by
  cases op with
  | create a => exact h.create a
  | bind a addr => exact h.bind a hf
  | send a routed => exact h.send a routed hf
  | close a => exact h.close a
  | packet4 packet heap =>
    obtain ⟨hd, he⟩ := udpHandlePacket_eq s heap hp hf
    have hs : Udp.step s (.packet4 packet heap) = udpHandlePacket s packet heap := rfl
    rw [Effect, hs, he]
    exact h.deliver heap hd
  | packet6 packet heap =>
    have hs : Udp.step s (.packet6 packet heap) = udpHandlePacket6 s packet heap := rfl
    rw [Effect, hs, udpHandlePacket6_eq s heap hp]
    exact h.deliver heap (.inl hp)
  | receive a len => exact h.receive a len hf

theorem Inv.run {s : State} (h : Inv s) {ops : List Op} (hp : ∀ op ∈ ops, op.Proper)
    (hf : Respects Fits Udp.step s ops) : Respects Fine Udp.step s ops := by
  induction ops generalizing s with
  | nil => trivial
  | cons op ops ih =>
    obtain ⟨hinv, heff⟩ := h.step op (hp op List.mem_cons_self) hf.1
    exact ⟨⟨hinv.ports.one, hinv.queues.inOrder, heff⟩,
      ih hinv (fun o ho => hp o (List.mem_cons_of_mem op ho)) hf.2⟩

/-- A copy is received as it is meant to be for these lengths only, and while every step fits,
every step does what is claimed of it. -/
theorem udp_run {ops : List Op} (hp : ∀ op ∈ ops, op.Proper) (hf : Respects Fits step {} ops) :
    (∀ d, IsDatagram d → ∀ len, Right d len (copyOut d len) ↔ RecvFits d len) ∧
      Respects Fine step {} ops :=
  ⟨fun _ hd len => right_copyOut_iff hd len, inv_start.run hp hf⟩

/-- An IPv4 datagram of one byte, from port 9 to port 7. -/
def oneByte (i : ℕ) : UInt8 :=
  [0x45, 0, 0, 29, 0, 0, 0x40, 0, 64, 17, 0, 0, 10, 0, 0, 1, 10, 0, 0, 2,
    0, 9, 0, 7, 0, 9, 0, 0, 0xab].getD i 0

theorem udp_run_oneByte :
    Respects Fine step {} [.create 1, .bind 1 (some 7), .create 2, .send 2 true,
      .packet4 oneByte (fun _ => 0), .receive 1 1] := by
  apply And.right (udp_run ?_ ?_)
  · simp only [List.mem_cons, List.not_mem_nil, or_false, forall_eq_or_imp, forall_eq, Op.Proper,
      and_true, true_and]
    decide
  · refine ⟨trivial, ?_, trivial, ?_, ?_, ?_, trivial⟩
    · change some 7 ≠ some 0
      decide
    · intro _
      decide
    · change headerLen oneByte = 20
      decide
    · intro x hx
      cases hx
      decide

/-- It is written into a buffer of no bytes. -/
theorem receive_overruns :
    ¬ ∀ ops, (∀ op ∈ ops, op.Proper) → Respects Fine step {} ops := by
  intro h
  have hrun := h [.create 1, .bind 1 (some 7), .packet4 oneByte (fun _ => 0), .receive 1 0] (by
    simp only [List.mem_cons, List.not_mem_nil, or_false, forall_eq_or_imp, forall_eq, Op.Proper,
      true_and]
    decide)
  have hone : ∀ d : ℕ → UInt8, d 0 = 0x45 → d 2 = 0 → d 3 = 29 → (copyOut d 0).wrote = 1 := by
    intro d h0 h2 h3
    simp [copyOut, isV6, be16, h0, h2, h3]
  obtain ⟨-, -, r, hr, hright⟩ := hrun.2.2.2.1.effect.1
  rw [exec_receive rfl (by decide) rfl] at hr
  have hw := hright.wrote
  rw [← Option.some.inj hr, hone _ (by decide) (by decide) (by decide), Nat.min_zero] at hw
  cases hw

end Xeneva.Net.Udp
