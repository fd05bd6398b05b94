import Xeneva.Net.Tcp

/-!
# Segments outside the receive window

What a segment with a sequence number outside the window should leave alone, and when it does.
-/

namespace Xeneva.Net

/-- The states at or past `synReceived`. -/
def Synchronized : TCPState → Prop
  | .closed | .listen | .synSent => False
  | _ => True

/-- The sequence number lies outside the window, modulo 2 ^ 32. -/
def Outside (s : AuSocket) (tcp : TCPHeader) : Prop :=
  (tcpWindowOf s).toNat ≤ (tcp.sequenceNum - s.pcb.rcv_nxt).toNat

/-- The state of the connection is the same, and the reader gets no data, no end and no error. -/
structure Unharmed (s s' : AuSocket) : Prop where
  state : s'.pcb.state = s.pcb.state
  sockState : s'.sockState = s.sockState
  rxbuf : s'.pcb.rxbuf = s.pcb.rxbuf
  rcv_nxt : s'.pcb.rcv_nxt = s.pcb.rcv_nxt
  fin_recvd : s'.pcb.fin_recvd = s.pcb.fin_recvd

def Reset (s s' : AuSocket) : Prop :=
  s.sockState ≠ .connectionRst ∧ s'.sockState = .connectionRst

/-- A segment outside the window does no harm, and only a RST in the window resets. -/
def WindowHeld (s s' : AuSocket) (tcp : TCPHeader) : Prop :=
  (Outside s tcp → Unharmed s s') ∧
    (Reset s s' → has tcp.flags TCP_FLAGS_RST ∧ ¬Outside s tcp)

/-- The segment acknowledges all that was sent, in a state that waits for this. -/
def Completes (s : AuSocket) (tcp : TCPHeader) : Prop :=
  has tcp.flags TCP_FLAGS_ACK ∧ tcp.ackNum = s.pcb.snd_nxt ∧
    (s.pcb.state = .synReceived ∨ s.pcb.state = .finWait1 ∨ s.pcb.state = .lastAck ∨
      s.pcb.state = .closing)

/-- What the handlers look at before, or beside, the sequence number. -/
def Harmless (s : AuSocket) (tcp : TCPHeader) : Prop :=
  ¬has tcp.flags TCP_FLAGS_RST ∧ ¬Completes s tcp ∧
    ¬(has tcp.flags TCP_FLAGS_FIN ∧ tcp.sequenceNum = s.pcb.rcv_nxt)

/-! ## Parts of the handler -/

theorem Unharmed.refl (s : AuSocket) : Unharmed s s := ⟨rfl, rfl, rfl, rfl, rfl⟩

theorem Unharmed.trans {s t u : AuSocket} (h : Unharmed s t) (h' : Unharmed t u) :
    Unharmed s u where
  state := h'.state.trans h.state
  sockState := h'.sockState.trans h.sockState
  rxbuf := h'.rxbuf.trans h.rxbuf
  rcv_nxt := h'.rcv_nxt.trans h.rcv_nxt
  fin_recvd := h'.fin_recvd.trans h.fin_recvd

theorem Unharmed.symm {s t : AuSocket} (h : Unharmed s t) : Unharmed t s :=
  ⟨h.state.symm, h.sockState.symm, h.rxbuf.symm, h.rcv_nxt.symm, h.fin_recvd.symm⟩

theorem unharmed_send (ready : Bool) (s : AuSocket) (flags : BitVec 16) (n : ℕ) :
    Unharmed s (tcpSendSegment ready s flags n).1 := by
  unfold tcpSendSegment
  split
  · exact .refl s
  · exact ⟨rfl, rfl, rfl, rfl, rfl⟩

theorem unharmed_ack (ready : Bool) (s : AuSocket) : Unharmed s (tcpSendAck ready s) :=
  unharmed_send ready s TCP_FLAGS_ACK 0

/-- An acknowledgement does harm just when it completes a wait. -/
theorem unharmed_handleAck_iff (s : AuSocket) (tcp : TCPHeader) :
    Unharmed s (tcpHandleAck s tcp) ↔ ¬(tcp.ackNum = s.pcb.snd_nxt ∧
      (s.pcb.state = .synReceived ∨ s.pcb.state = .finWait1 ∨ s.pcb.state = .lastAck ∨
        s.pcb.state = .closing)) := by
  constructor
  · intro h ⟨ha, hs⟩
    have hstate := h.state
    unfold tcpHandleAck at hstate
    rcases hs with hs | hs | hs | hs
    · simp [ha, hs] at hstate
    · simp [ha, hs] at hstate
    · simp [ha, hs] at hstate
    · simp [ha, hs] at hstate
  · intro h
    by_cases ha : tcp.ackNum = s.pcb.snd_nxt
    · have h1 : s.pcb.state ≠ .synReceived := fun hs => h ⟨ha, .inl hs⟩
      have h2 : s.pcb.state ≠ .finWait1 := fun hs => h ⟨ha, .inr (.inl hs)⟩
      have h3 : s.pcb.state ≠ .lastAck := fun hs => h ⟨ha, .inr (.inr (.inl hs))⟩
      have h4 : s.pcb.state ≠ .closing := fun hs => h ⟨ha, .inr (.inr (.inr hs))⟩
      refine ⟨?_, ?_, rfl, rfl, rfl⟩
      · simp [tcpHandleAck, h1, h2, h3, h4]
      · simp [tcpHandleAck, h1]
    · refine ⟨?_, ?_, rfl, rfl, rfl⟩
      · simp [tcpHandleAck, ha]
      · simp [tcpHandleAck, ha]

/-- The socket after the acknowledgement part of the handler. -/
def acked (s : AuSocket) (tcp : TCPHeader) : AuSocket :=
  if has tcp.flags TCP_FLAGS_ACK then tcpHandleAck s tcp else s

theorem unharmed_acked_iff (s : AuSocket) (tcp : TCPHeader) :
    Unharmed s (acked s tcp) ↔ ¬Completes s tcp := by
  unfold acked
  split
  case isTrue h =>
    rw [unharmed_handleAck_iff, Completes]
    simp only [h, true_and]
  case isFalse h =>
    constructor
    · intro _ hc
      exact h hc.1
    · intro _
      exact .refl s

/-- The acknowledgement part leaves the receive side alone and resets nothing. -/
theorem acked_rest (s : AuSocket) (tcp : TCPHeader) :
    (acked s tcp).pcb.rcv_nxt = s.pcb.rcv_nxt ∧ (acked s tcp).pcb.rxbuf = s.pcb.rxbuf ∧
      ((acked s tcp).sockState = s.sockState ∨ (acked s tcp).sockState = .connected) ∧
      (Synchronized s.pcb.state → (acked s tcp).pcb.state ≠ .synSent) := by
  unfold acked
  split
  · refine ⟨rfl, rfl, ?_, ?_⟩
    · unfold tcpHandleAck
      simp only
      split
      · exact .inr rfl
      · exact .inl rfl
    · intro hs hc
      unfold tcpHandleAck at hc
      cases h : s.pcb.state <;> simp_all [Synchronized]
      all_goals split at hc <;> simp_all
  · refine ⟨rfl, rfl, .inl rfl, ?_⟩
    intro hs hc
    rw [hc] at hs
    exact hs

theorem tcpHandlePayload_sockState (s : AuSocket) (tcp : TCPHeader) (payload : List UInt8) :
    (tcpHandlePayload s tcp payload).1.sockState = s.sockState := by
  unfold tcpHandlePayload
  split
  · rfl
  split
  · rfl
  split
  · rfl
  · simp only
    split <;> rfl

theorem tcpHandleFin_sockState (s : AuSocket) (tcp : TCPHeader) (n : ℕ) :
    (tcpHandleFin s tcp n).1.sockState = s.sockState := by
  unfold tcpHandleFin
  split <;> rfl

theorem tcpHandleEstablished_eq (ready : Bool) (s : AuSocket) (tcp : TCPHeader)
    (payload : List UInt8) (hs : (acked s tcp).pcb.state ≠ .synSent) :
    tcpHandleEstablished ready s tcp payload =
      if (tcpHandlePayload (acked s tcp) tcp payload).2.2 then
        tcpSendAck ready (tcpHandlePayload (acked s tcp) tcp payload).1
      else
        let r := tcpHandleFin (tcpHandlePayload (acked s tcp) tcp payload).1 tcp payload.length
        if (tcpHandlePayload (acked s tcp) tcp payload).2.1 ∨ r.2 then tcpSendAck ready r.1
        else r.1 := by
  unfold tcpHandleEstablished
  exact if_neg hs

/-- The handler resets nothing by itself. -/
theorem tcpHandleEstablished_sockState (ready : Bool) (s : AuSocket) (tcp : TCPHeader)
    (payload : List UInt8) (hs : Synchronized s.pcb.state) :
    (tcpHandleEstablished ready s tcp payload).sockState = (acked s tcp).sockState := by
  rw [tcpHandleEstablished_eq ready s tcp payload ((acked_rest s tcp).2.2.2 hs)]
  have hpay := tcpHandlePayload_sockState (acked s tcp) tcp payload
  split
  · rw [(unharmed_ack ..).sockState, hpay]
  · simp only
    split
    · rw [(unharmed_ack ..).sockState, tcpHandleFin_sockState, hpay]
    · rw [tcpHandleFin_sockState, hpay]

/-- The end of the handler, for a segment that is in order only at the start of the window. -/
theorem finPart (ready : Bool) {s : AuSocket} {tcp : TCPHeader} {n : ℕ} (needAck : Bool)
    (h : tcp.sequenceNum + BitVec.ofNat 32 n = s.pcb.rcv_nxt → tcp.sequenceNum = s.pcb.rcv_nxt) :
    let r := tcpHandleFin s tcp n
    let s' := if needAck ∨ r.2 then tcpSendAck ready r.1 else r.1
    if has tcp.flags TCP_FLAGS_FIN ∧ tcp.sequenceNum = s.pcb.rcv_nxt then
      s'.pcb.rcv_nxt = s.pcb.rcv_nxt + 1
    else Unharmed s s' := by
  by_cases hf : has tcp.flags TCP_FLAGS_FIN ∧ tcp.sequenceNum = s.pcb.rcv_nxt
  · have hend : tcpHandleFin s tcp n = ({ s with pcb := { s.pcb with
        rcv_nxt := s.pcb.rcv_nxt + 1
        fin_recvd := true
        state := finState s.pcb.state } }, true) := if_pos ⟨hf.1, .inr hf.2⟩
    rw [if_pos hf, hend]
    simp only [or_true, if_true]
    exact (unharmed_ack ..).rcv_nxt
  · have hend : tcpHandleFin s tcp n = (s, false) := by
      apply if_neg
      intro hc
      exact hf ⟨hc.1, hc.2.elim h id⟩
    rw [if_neg hf, hend]
    simp only
    split
    · exact unharmed_ack ready s
    · exact .refl s

/-- Outside the window the payload is dropped, and only a FIN at the window's start counts. -/
theorem outside_established (ready : Bool) {s : AuSocket} {tcp : TCPHeader} (payload : List UInt8)
    (hs : Synchronized s.pcb.state) (ho : Outside s tcp) :
    if has tcp.flags TCP_FLAGS_FIN ∧ tcp.sequenceNum = s.pcb.rcv_nxt then
      (tcpHandleEstablished ready s tcp payload).pcb.rcv_nxt = s.pcb.rcv_nxt + 1
    else Unharmed (acked s tcp) (tcpHandleEstablished ready s tcp payload) := by
  obtain ⟨hrcv, hbuf, -, hsyn⟩ := acked_rest s tcp
  rw [tcpHandleEstablished_eq ready s tcp payload (hsyn hs)]
  generalize acked s tcp = s₀ at hrcv hbuf
  have hwin : tcpWindowOf s₀ = tcpWindowOf s := by rw [tcpWindowOf, hbuf, tcpWindowOf]
  -- A segment at the start of the window is outside only when the window is closed.
  have hzero : tcp.sequenceNum = s₀.pcb.rcv_nxt → (tcpWindowOf s₀).toNat = 0 := by
    intro he
    unfold Outside at ho
    rw [he, hrcv, BitVec.sub_self, ← hwin] at ho
    exact Nat.le_zero.mp ho
  by_cases hp : payload.length = 0
  · have hpay : tcpHandlePayload s₀ tcp payload = (s₀, false, false) := if_pos hp
    rw [hpay, ← hrcv]
    exact finPart ready false fun he => by simpa [hp] using he
  · by_cases he : tcp.sequenceNum = s₀.pcb.rcv_nxt
    · have hlt : (tcpWindowOf s₀).toNat < payload.length := by
        rw [hzero he]
        exact Nat.pos_of_ne_zero hp
      have hpay : tcpHandlePayload s₀ tcp payload = (s₀, true, false) := by
        unfold tcpHandlePayload
        rw [if_neg hp, if_neg (not_not.mpr he), if_pos hlt]
      rw [hpay, ← hrcv]
      exact finPart ready true fun _ => he
    · have hpay : tcpHandlePayload s₀ tcp payload = (s₀, true, true) := by
        unfold tcpHandlePayload
        rw [if_neg hp, if_pos he]
      rw [hpay, if_neg (fun hc => he (hc.2.trans hrcv.symm))]
      exact unharmed_ack ready s₀

theorem tcpHandlePacket_established (ipv6 ready : Bool) {s : AuSocket} {tcp : TCPHeader}
    (payload : List UInt8) (hs : Synchronized s.pcb.state) (hr : ¬has tcp.flags TCP_FLAGS_RST) :
    tcpHandlePacket ipv6 ready s tcp payload = tcpHandleEstablished ready s tcp payload := by
  unfold tcpHandlePacket
  rw [if_neg hr]
  cases h : s.pcb.state with
  | listen =>
    rw [h] at hs
    exact hs.elim
  | synSent =>
    rw [h] at hs
    exact hs.elim
  | _ => rfl

/-- A synchronized connection holds its window against a segment exactly when the segment is
in the window or nothing is done with it before its sequence number is looked at. -/
theorem windowHeld_iff (ipv6 ready : Bool) (s : AuSocket) (tcp : TCPHeader) (payload : List UInt8)
    (hs : Synchronized s.pcb.state) :
    WindowHeld s (tcpHandlePacket ipv6 ready s tcp payload) tcp ↔
      (Outside s tcp → Harmless s tcp) := by
  by_cases hr : has tcp.flags TCP_FLAGS_RST
  · have hp : tcpHandlePacket ipv6 ready s tcp payload =
        { s with pcb := { s.pcb with state := .closed }, sockState := .connectionRst } := if_pos hr
    rw [hp]
    constructor
    · intro h ho
      have hstate : TCPState.closed = s.pcb.state := (h.1 ho).state
      rw [← hstate] at hs
      exact hs.elim
    · intro h
      have hin : ¬Outside s tcp := fun ho => (h ho).1 hr
      exact ⟨fun ho => absurd ho hin, fun _ => ⟨hr, hin⟩⟩
  · rw [tcpHandlePacket_established ipv6 ready payload hs hr]
    have hreset : ¬Reset s (tcpHandleEstablished ready s tcp payload) := by
      intro ⟨hn, hc⟩
      rw [tcpHandleEstablished_sockState ready s tcp payload hs] at hc
      rcases (acked_rest s tcp).2.2.1 with h | h
      · exact hn (h ▸ hc)
      · rw [h] at hc
        exact absurd hc (by decide)
    constructor
    · intro h ho
      have hu := h.1 ho
      have hest := outside_established ready payload hs ho
      split at hest
      · rw [hu.rcv_nxt] at hest
        exact absurd hest (by simp)
      case isFalse hf =>
        exact ⟨hr, (unharmed_acked_iff s tcp).mp (hu.trans hest.symm), hf⟩
    · intro h
      refine ⟨fun ho => ?_, fun hc => absurd hc hreset⟩
      obtain ⟨-, hc, hf⟩ := h ho
      have hest := outside_established ready payload hs ho
      rw [if_neg hf] at hest
      exact ((unharmed_acked_iff s tcp).mpr hc).trans hest

/-- An established connection that has sent and received nothing yet. -/
def freshConn : AuSocket :=
  { tcpAllocSocket with
    pcb := { tcpAllocPCB with state := .established, rcv_nxt := 1000, snd_nxt := 500 }
    sockState := .connected }

/-- Data far outside the window. -/
theorem windowHeld_iff_data : WindowHeld freshConn (tcpHandlePacket false true freshConn
    ⟨500000, 400, TCP_FLAGS_ACK, 100⟩ [1, 2]) ⟨500000, 400, TCP_FLAGS_ACK, 100⟩ ↔
      (Outside freshConn ⟨500000, 400, TCP_FLAGS_ACK, 100⟩ →
        Harmless freshConn ⟨500000, 400, TCP_FLAGS_ACK, 100⟩) :=
  windowHeld_iff false true freshConn ⟨500000, 400, TCP_FLAGS_ACK, 100⟩ [1, 2] trivial

/-- A RST far outside the window resets the connection. -/
theorem not_windowHeld : ¬∀ (ipv6 ready : Bool) (s : AuSocket) (tcp : TCPHeader)
    (payload : List UInt8), Synchronized s.pcb.state →
    WindowHeld s (tcpHandlePacket ipv6 ready s tcp payload) tcp := by
  intro h
  have hw := h false true freshConn ⟨500000, 0, TCP_FLAGS_RST, 0⟩ [] trivial
  have ho : Outside freshConn ⟨500000, 0, TCP_FLAGS_RST, 0⟩ := by
    unfold Outside
    decide +kernel
  exact absurd (hw.1 ho).state (by decide +kernel)

end Xeneva.Net
