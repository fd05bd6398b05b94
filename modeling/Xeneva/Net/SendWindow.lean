import Xeneva.Base.Slots
import Xeneva.Net.Tcp

/-!
# The send window

What a socket has sent and its peer has not acknowledged lies between `snd_una` and
`snd_nxt`. `AuTCPSend` does not look at `snd_wnd`, and `TCPHandleEstablished` takes the window
of any acknowledgement, an old one included.
-/

namespace Xeneva.Net
open Base

variable {s s' : AuSocket} {tcp : TCPHeader}

/-- The sequence numbers that are sent and not acknowledged. -/
def outstanding (s : AuSocket) : ℕ := ahead s.pcb.snd_una s.pcb.snd_nxt

/-- A SYN or a FIN that is not acknowledged takes one number beyond the window. -/
def controlOctet : TCPState → ℕ
  | .established | .closeWait | .finWait2 | .timeWait => 0
  | _ => 1

/-- `snd_una` ≤ `snd_nxt` ≤ `snd_una` + 2 ^ 31, and `snd_nxt` is in the peer's window. -/
structure SendWindow (s : AuSocket) : Prop where
  span : outstanding s ≤ 2 ^ 31
  window : outstanding s ≤ s.pcb.snd_wnd.toNat + controlOctet s.pcb.state

inductive SendAct
  | connect (nonblock ready : Bool) (rand : BitVec 32)
  | listenSyn (ready : Bool) (rand : BitVec 32) (tcp : TCPHeader)
  | connectPoll (late ready : Bool)
  | connectWait (late ready : Bool) (attempts : ℕ)
  | segment (ipv6 ready : Bool) (tcp : TCPHeader) (payload : List UInt8)
  | receive (ready : Bool) (want : ℕ)
  | send (ready : ℕ → Bool) (len : ℕ)
  | listen
  | close (ready : Bool)

/-- The socket, with any segment at any time; a child of a listener takes its place. -/
def sendStep (s : AuSocket) : SendAct → AuSocket
  | .connect nonblock ready rand =>
    if startsHandshake nonblock s then auTCPConnect ready rand s
    else if s.pcb.state = .established then { s with sockState := .connected }
    else s
  | .listenSyn ready rand tcp => tcpHandleListenSyn ready rand tcp
  | .connectPoll late ready => auTCPConnectPoll late ready s
  | .connectWait late ready attempts => auTCPConnectWait late ready attempts s
  | .segment ipv6 ready tcp payload => tcpHandlePacket ipv6 ready s tcp payload
  | .receive ready want => (auTCPReceive ready s want).1
  | .send ready len => auTCPSend ready s len
  | .listen => auTCPListen s
  | .close ready => auTCPClose ready s

/-- The step begins a new connection. -/
def SendAct.begins (s : AuSocket) : SendAct → Bool
  | .connect nonblock _ _ => startsHandshake nonblock s
  | .listenSyn .. => true
  | _ => false

/-- A step within a connection moves `snd_una` neither backwards nor past `snd_nxt`, and a
step that transmits payload stays in the peer's window. -/
structure SendRight (s : AuSocket) (act : SendAct) : Prop where
  forward : act.begins s = false →
    ahead s.pcb.snd_una (sendStep s act).pcb.snd_una ≤
        ahead s.pcb.snd_una (sendStep s act).pcb.snd_nxt ∧
      ahead s.pcb.snd_una (sendStep s act).pcb.snd_nxt ≤ 2 ^ 31
  payload : ∀ ready len, act = .send ready len → (sendStep s act).pcb.snd_nxt ≠ s.pcb.snd_nxt →
    outstanding (sendStep s act) ≤ s.pcb.snd_wnd.toNat

/-- The acknowledgement is for something that was sent and not acknowledged before. -/
def Acceptable (s : AuSocket) (tcp : TCPHeader) : Prop :=
  0 < (tcp.ackNum - s.pcb.snd_una).toInt ∧ 0 ≤ (s.pcb.snd_nxt - tcp.ackNum).toInt

instance (s : AuSocket) (tcp : TCPHeader) : Decidable (Acceptable s tcp) :=
  inferInstanceAs (Decidable (_ ∧ _))

/-- The window of the segment still covers what is outstanding after it. -/
def Covers (s : AuSocket) (tcp : TCPHeader) : Prop :=
  (if Acceptable s tcp then ahead tcp.ackNum s.pcb.snd_nxt else outstanding s) ≤
    tcp.window.toNat + controlOctet s.pcb.state

instance (s : AuSocket) (tcp : TCPHeader) : Decidable (Covers s tcp) :=
  inferInstanceAs (Decidable (_ ≤ _))

/-- The data fits into the window, no acknowledgement takes the window back from what is
outstanding, the answer to a SYN comes for one that was sent, and a socket that closes with
its SYN not acknowledged has a window. -/
def SendOk (s : AuSocket) : SendAct → Prop
  | .send _ len => s.pcb.state = .established ∨ s.pcb.state = .closeWait →
    outstanding s + len ≤ s.pcb.snd_wnd.toNat
  | .segment _ _ tcp _ =>
    if has tcp.flags TCP_FLAGS_RST then True
    else match s.pcb.state with
      | .listen => True
      | .synSent => has tcp.flags TCP_FLAGS_SYN ∧ has tcp.flags TCP_FLAGS_ACK ∧
          tcp.ackNum = s.pcb.iss + 1 → s.pcb.snd_nxt = s.pcb.iss + 1
      | _ => has tcp.flags TCP_FLAGS_ACK → Covers s tcp
  | .close _ => s.pcb.state = .synReceived → outstanding s ≤ s.pcb.snd_wnd.toNat
  | _ => True

instance (s : AuSocket) : DecidablePred (SendOk s) := fun act => by
  cases act <;> unfold SendOk <;> try infer_instance
  dsimp only
  split_ifs
  · infer_instance
  · split <;> infer_instance

/-- While its SYN is out, a socket has nothing acknowledged. -/
structure SendInv (s : AuSocket) : Prop extends SendWindow s where
  syn : s.pcb.state = .synSent → s.pcb.snd_una = s.pcb.iss

theorem controlOctet_le (x : TCPState) : controlOctet x ≤ 1 := by cases x <;> decide

theorem SendInv.of_window (h : outstanding s ≤ s.pcb.snd_wnd.toNat + controlOctet s.pcb.state)
    (hsyn : s.pcb.state = .synSent → s.pcb.snd_una = s.pcb.iss) : SendInv s := by
  have hw := s.pcb.snd_wnd.isLt
  have hc := controlOctet_le s.pcb.state
  exact ⟨⟨by omega, h⟩, hsyn⟩

/-- The send side is the same, and the state leaves as much room. -/
structure SameSend (s s' : AuSocket) : Prop where
  snd_una : s'.pcb.snd_una = s.pcb.snd_una
  snd_nxt : s'.pcb.snd_nxt = s.pcb.snd_nxt
  snd_wnd : s'.pcb.snd_wnd = s.pcb.snd_wnd
  iss : s'.pcb.iss = s.pcb.iss
  octet : controlOctet s.pcb.state ≤ controlOctet s'.pcb.state
  syn : s'.pcb.state = .synSent → s.pcb.state = .synSent

theorem SameSend.refl (s : AuSocket) : SameSend s s := ⟨rfl, rfl, rfl, rfl, Nat.le_refl _, id⟩

theorem SameSend.trans {s'' : AuSocket} (h : SameSend s s') (h' : SameSend s' s'') :
    SameSend s s'' where
  snd_una := h'.snd_una.trans h.snd_una
  snd_nxt := h'.snd_nxt.trans h.snd_nxt
  snd_wnd := h'.snd_wnd.trans h.snd_wnd
  iss := h'.iss.trans h.iss
  octet := Nat.le_trans h.octet h'.octet
  syn hs := h.syn (h'.syn hs)

theorem SameSend.inv (h : SameSend s s') (hi : SendInv s) : SendInv s' := by
  have hw := hi.window
  have ho := h.octet
  refine SendInv.of_window ?_ fun hs => ?_
  · unfold outstanding at hw ⊢
    rw [h.snd_una, h.snd_nxt, h.snd_wnd]
    omega
  · rw [h.snd_una, h.iss]
    exact hi.syn (h.syn hs)

/-- From `s` to `s'` the acknowledged part grows, within what was sent. -/
def Forward (s s' : AuSocket) : Prop :=
  ahead s.pcb.snd_una s'.pcb.snd_una ≤ ahead s.pcb.snd_una s'.pcb.snd_nxt ∧
    ahead s.pcb.snd_una s'.pcb.snd_nxt ≤ 2 ^ 31

theorem SendInv.forward (h : SendInv s') (hs : s'.pcb.snd_una = s.pcb.snd_una) : Forward s s' := by
  have hspan := h.span
  unfold outstanding at hspan
  rw [hs] at hspan
  constructor
  · rw [hs, ahead_self]
    exact Nat.zero_le _
  · exact hspan

/-! ## Sending -/

/-- The sequence numbers a segment takes. -/
def segmentSpan (flags : BitVec 16) (payloadLen : ℕ) : BitVec 32 :=
  if has flags TCP_FLAGS_SYN then 1
  else if has flags TCP_FLAGS_FIN then BitVec.ofNat 32 payloadLen + 1
  else BitVec.ofNat 32 payloadLen

theorem tcpSendSegment_pcb (ready : Bool) (s : AuSocket) (flags : BitVec 16) (n : ℕ) :
    (tcpSendSegment ready s flags n).1.pcb = { s.pcb with
      snd_nxt := if ready then s.pcb.snd_nxt + segmentSpan flags n else s.pcb.snd_nxt } := by
  unfold tcpSendSegment segmentSpan
  cases ready with
  | false => simp
  | true =>
    simp only [not_true_eq_false, if_false, if_true]
    split_ifs
    · rfl
    · rw [BitVec.add_assoc]
    · rfl

theorem SameSend.of_pcb (h : s'.pcb = s.pcb) : SameSend s s' := by
  refine ⟨?_, ?_, ?_, ?_, ?_, ?_⟩ <;> rw [h]
  exact id

theorem SameSend.sendAck (ready : Bool) (s : AuSocket) : SameSend s (tcpSendAck ready s) := by
  have hspan : segmentSpan TCP_FLAGS_ACK 0 = 0 := by decide
  apply SameSend.of_pcb
  unfold tcpSendAck
  rw [tcpSendSegment_pcb, hspan]
  cases ready <;> simp

/-- A SYN, sent from the first sequence number or not sent at all. -/
theorem syn_outstanding (ready : Bool) {flags : BitVec 16} (hf : has flags TCP_FLAGS_SYN)
    (h : s.pcb.snd_una = s.pcb.snd_nxt) :
    outstanding (tcpSendSegment ready s flags 0).1 ≤ 1 := by
  unfold outstanding
  rw [tcpSendSegment_pcb]
  unfold segmentSpan
  rw [if_pos hf]
  dsimp only
  rw [h]
  cases ready with
  | false => simp
  | true =>
    have hone : ahead s.pcb.snd_nxt (s.pcb.snd_nxt + 1) = 1 := by
      rw [ahead_add_right]
      · simp
      · simp
    exact Nat.le_of_eq hone

theorem SendInv.syn_sent (ready : Bool) {flags : BitVec 16} (hf : has flags TCP_FLAGS_SYN)
    (h : s.pcb.snd_una = s.pcb.snd_nxt) (hc : controlOctet s.pcb.state = 1)
    (hsyn : s.pcb.state = .synSent → s.pcb.snd_una = s.pcb.iss) :
    SendInv (tcpSendSegment ready s flags 0).1 := by
  have hout := syn_outstanding ready hf h
  refine SendInv.of_window ?_ ?_
  · rw [tcpSendSegment_pcb]
    dsimp only
    omega
  · rw [tcpSendSegment_pcb]
    exact hsyn

/-- Only `snd_nxt` of the control block changed. -/
def OnlyNxt (s s' : AuSocket) : Prop := s'.pcb = { s.pcb with snd_nxt := s'.pcb.snd_nxt }

theorem OnlyNxt.trans {s'' : AuSocket} (h : OnlyNxt s s') (h' : OnlyNxt s' s'') :
    OnlyNxt s s'' := by
  unfold OnlyNxt at h h' ⊢
  rw [h] at h'
  exact h'

theorem OnlyNxt.sendSegment (ready : Bool) (s : AuSocket) (flags : BitVec 16) (n : ℕ) :
    OnlyNxt s (tcpSendSegment ready s flags n).1 := by
  unfold OnlyNxt
  rw [tcpSendSegment_pcb]

/-- A chunk of data moves `snd_nxt` by its length at most. -/
theorem chunk_outstanding (ready : Bool) (s : AuSocket) {chunk : ℕ}
    (h : outstanding s + chunk < 2 ^ 32) :
    outstanding (tcpSendSegment ready s (TCP_FLAGS_ACK ||| TCP_FLAGS_PSH) chunk).1 ≤
      outstanding s + chunk := by
  have hspan : segmentSpan (TCP_FLAGS_ACK ||| TCP_FLAGS_PSH) chunk = BitVec.ofNat 32 chunk := by
    have hsyn : has (TCP_FLAGS_ACK ||| TCP_FLAGS_PSH) TCP_FLAGS_SYN = false := by decide
    have hfin : has (TCP_FLAGS_ACK ||| TCP_FLAGS_PSH) TCP_FLAGS_FIN = false := by decide
    unfold segmentSpan
    rw [hsyn, hfin]
    rfl
  have hval : (BitVec.ofNat 32 chunk).toNat = chunk := by
    rw [BitVec.toNat_ofNat]
    exact Nat.mod_eq_of_lt (by omega)
  unfold outstanding at h ⊢
  rw [tcpSendSegment_pcb, hspan]
  dsimp only
  split_ifs
  · rw [ahead_add_right _ _ _ (by rw [hval]; exact h), hval]
  · omega

/-- The loop of `AuTCPSend` transmits no more than it was given. -/
theorem auTCPSendLoop_window (ready : ℕ → Bool) (n : ℕ) (s : AuSocket) (remaining : ℕ) {w : ℕ}
    (hw : outstanding s + remaining ≤ w) (hlt : w < 2 ^ 32) :
    outstanding (auTCPSendLoop ready n s remaining) ≤ w ∧
      OnlyNxt s (auTCPSendLoop ready n s remaining) := by
  induction n generalizing s remaining with
  | zero => exact ⟨by unfold auTCPSendLoop; omega, rfl⟩
  | succ n ih =>
    unfold auTCPSendLoop
    by_cases h0 : remaining = 0
    · rw [if_pos h0]
      exact ⟨by omega, rfl⟩
    · rw [if_neg h0]
      dsimp only
      generalize hchunk : (if remaining > s.pcb.mss then s.pcb.mss else remaining) = chunk
      have hle : chunk ≤ remaining := by
        rw [← hchunk]
        split_ifs <;> omega
      have hfit : outstanding s + chunk < 2 ^ 32 := by omega
      have hout := chunk_outstanding (ready n) s hfit
      have honly := OnlyNxt.sendSegment (ready n) s (TCP_FLAGS_ACK ||| TCP_FLAGS_PSH) chunk
      generalize tcpSendSegment (ready n) s (TCP_FLAGS_ACK ||| TCP_FLAGS_PSH) chunk = r
        at hout honly ⊢
      by_cases hsent : r.2 = true
      · rw [if_neg (not_not.mpr hsent)]
        obtain ⟨h1, h2⟩ := ih r.1 (remaining - chunk) (by omega)
        exact ⟨h1, honly.trans h2⟩
      · rw [if_pos hsent]
        exact ⟨by omega, honly⟩

/-- A FIN or a RST, which takes one number or none. -/
theorem control_outstanding (ready : Bool) (s : AuSocket) {flags : BitVec 16}
    (hf : has flags TCP_FLAGS_SYN = false) (h : outstanding s + 1 < 2 ^ 32) :
    outstanding (tcpSendSegment ready s flags 0).1 ≤ outstanding s + 1 := by
  unfold outstanding at h ⊢
  rw [tcpSendSegment_pcb]
  unfold segmentSpan
  simp only [hf, Bool.false_eq_true, if_false]
  by_cases hr : ready = true
  · rw [if_pos hr]
    by_cases hfin : has flags TCP_FLAGS_FIN = true
    · have hone : (BitVec.ofNat 32 0 + 1).toNat = 1 := by decide
      rw [if_pos hfin, ahead_add_right _ _ _ (by rw [hone]; exact h), hone]
    · rw [if_neg hfin, BitVec.add_zero]
      omega
  · rw [if_neg hr]
    omega

/-! ## The calls of the owner -/

theorem SendInv.send (h : SendInv s) (ready : ℕ → Bool) {len : ℕ}
    (hok : SendOk s (.send ready len)) :
    SendInv (auTCPSend ready s len) ∧ (auTCPSend ready s len).pcb.snd_una = s.pcb.snd_una ∧
      ((auTCPSend ready s len).pcb.snd_nxt ≠ s.pcb.snd_nxt →
        outstanding (auTCPSend ready s len) ≤ s.pcb.snd_wnd.toNat) := by
  unfold auTCPSend
  split_ifs with hstate
  · exact ⟨h, rfl, fun hne => absurd rfl hne⟩
  · have hopen : s.pcb.state = .established ∨ s.pcb.state = .closeWait := by
      rcases not_and_or.mp hstate with hs | hs
      · exact .inl (not_not.mp hs)
      · exact .inr (not_not.mp hs)
    have hlt := s.pcb.snd_wnd.isLt
    obtain ⟨hout, honly⟩ := auTCPSendLoop_window ready len s len (hok hopen) (by omega)
    generalize auTCPSendLoop ready len s len = s' at hout honly ⊢
    unfold OnlyNxt at honly
    refine ⟨SendInv.of_window ?_ fun hs => ?_, ?_, fun _ => hout⟩
    · rw [honly]
      dsimp only
      omega
    · rw [honly] at hs ⊢
      exact h.syn hs
    · rw [honly]

theorem SendInv.resendSyn (h : SendInv s) (hs : s.pcb.state = .synSent) (ready : Bool) :
    SendInv (tcpResendSyn ready s).1 ∧ (tcpResendSyn ready s).1.pcb.snd_una = s.pcb.snd_una := by
  unfold tcpResendSyn
  constructor
  · refine SendInv.syn_sent ready (by decide) (h.syn hs) ?_ fun _ => h.syn hs
    dsimp only
    rw [hs]
    rfl
  · rw [tcpSendSegment_pcb]

theorem SendInv.connectPoll (h : SendInv s) (late ready : Bool) :
    SendInv (auTCPConnectPoll late ready s) ∧
      (auTCPConnectPoll late ready s).pcb.snd_una = s.pcb.snd_una := by
  have hclosed : SameSend s { s with pcb := { s.pcb with state := .closed } } :=
    ⟨rfl, rfl, rfl, rfl, controlOctet_le _, nofun⟩
  unfold auTCPConnectPoll
  split
  · exact ⟨h, rfl⟩
  split
  · have hsame : SameSend s { s with sockState := .connected } := .of_pcb rfl
    exact ⟨hsame.inv h, rfl⟩
  split
  · exact ⟨h, rfl⟩
  next hs =>
  split
  · exact ⟨h, rfl⟩
  split
  · exact ⟨hclosed.inv h, rfl⟩
  · obtain ⟨hi, hu⟩ := h.resendSyn (not_not.mp hs) ready
    have htries : SameSend (tcpResendSyn ready s).1 { (tcpResendSyn ready s).1 with
        pcb := { (tcpResendSyn ready s).1.pcb with
          syn_tries := (tcpResendSyn ready s).1.pcb.syn_tries + 1 } } :=
      ⟨rfl, rfl, rfl, rfl, Nat.le_refl _, id⟩
    exact ⟨htries.inv hi, hu⟩

theorem SendInv.connectWait (h : SendInv s) (late ready : Bool) (attempts : ℕ) :
    SendInv (auTCPConnectWait late ready attempts s) ∧
      (auTCPConnectWait late ready attempts s).pcb.snd_una = s.pcb.snd_una := by
  have hclosed : SameSend s { s with pcb := { s.pcb with state := .closed } } :=
    ⟨rfl, rfl, rfl, rfl, controlOctet_le _, nofun⟩
  unfold auTCPConnectWait
  split
  · exact ⟨h, rfl⟩
  next hs =>
  split
  · exact ⟨hclosed.inv h, rfl⟩
  · exact h.resendSyn (not_not.mp (not_or.mp hs).1) ready

theorem sendInv_connect (ready : Bool) (rand : BitVec 32) (s : AuSocket) :
    SendInv (auTCPConnect ready rand s) := by
  unfold auTCPConnect
  dsimp only
  generalize (if rand = 0 then 1 else rand) = iss
  have hi : SendInv (tcpSendSegment ready { s with
      pcb := { s.pcb with
        iss := iss, snd_una := iss, snd_nxt := iss, rcv_nxt := 0, state := .synSent }
      sockState := .waitingForConnection } TCP_FLAGS_SYN 0).1 :=
    SendInv.syn_sent ready (by decide) rfl rfl fun _ => rfl
  generalize (tcpSendSegment ready _ TCP_FLAGS_SYN 0).1 = s' at hi ⊢
  have htries : SameSend s' { s' with pcb := { s'.pcb with syn_tries := 0 } } :=
    ⟨rfl, rfl, rfl, rfl, Nat.le_refl _, id⟩
  exact htries.inv hi

theorem sendInv_listenSyn (ready : Bool) (rand : BitVec 32) (tcp : TCPHeader) :
    SendInv (tcpHandleListenSyn ready rand tcp) := by
  unfold tcpHandleListenSyn
  dsimp only
  generalize (if rand = 0 then 1 else rand) = iss
  exact SendInv.syn_sent ready (by decide) rfl rfl nofun

theorem SendInv.receive (h : SendInv s) (ready : Bool) (want : ℕ) :
    SendInv (auTCPReceive ready s want).1 ∧
      (auTCPReceive ready s want).1.pcb.snd_una = s.pcb.snd_una := by
  have key : ∀ s' : AuSocket, SameSend s s' → SendInv s' ∧ s'.pcb.snd_una = s.pcb.snd_una :=
    fun s' hs => ⟨hs.inv h, hs.snd_una⟩
  unfold auTCPReceive
  split_ifs
  · exact key _ (.refl s)
  · exact key _ (.refl s)
  · dsimp only
    have hread : SameSend s { s with pcb := { s.pcb with
        rxbuf := (auCircBufRead s.pcb.rxbuf want).1 } } := ⟨rfl, rfl, rfl, rfl, Nat.le_refl _, id⟩
    split_ifs
    · exact key _ (hread.trans (.sendAck ready _))
    · exact key _ hread

/-- A FIN takes one number, for which there is room. -/
theorem SendInv.fin (h : SendInv s) (ready : Bool) {state : TCPState}
    (hroom : outstanding s ≤ s.pcb.snd_wnd.toNat) (hc : controlOctet state = 1)
    (hsyn : state ≠ .synSent) :
    SendInv { (tcpSendSegment ready s (TCP_FLAGS_FIN ||| TCP_FLAGS_ACK) 0).1 with
      pcb := { (tcpSendSegment ready s (TCP_FLAGS_FIN ||| TCP_FLAGS_ACK) 0).1.pcb with
        state := state } } := by
  have hspan := h.span
  have hf : has (TCP_FLAGS_FIN ||| TCP_FLAGS_ACK) TCP_FLAGS_SYN = false := by decide
  have hout := control_outstanding ready s hf (by omega)
  refine SendInv.of_window ?_ fun hs => absurd hs hsyn
  have hwnd : (tcpSendSegment ready s (TCP_FLAGS_FIN ||| TCP_FLAGS_ACK) 0).1.pcb.snd_wnd =
      s.pcb.snd_wnd := by rw [tcpSendSegment_pcb]
  dsimp only
  rw [hc, hwnd]
  refine Nat.le_trans (Nat.le_of_eq rfl) (Nat.le_trans hout ?_)
  omega

theorem SendInv.close (h : SendInv s) (ready : Bool) (hok : SendOk s (.close ready)) :
    SendInv (auTCPClose ready s) ∧ (auTCPClose ready s).pcb.snd_una = s.pcb.snd_una := by
  have huna : ∀ flags, (tcpSendSegment ready s flags 0).1.pcb.snd_una = s.pcb.snd_una :=
    fun flags => by rw [tcpSendSegment_pcb]
  have hw := h.window
  -- a RST takes no sequence number
  have hrst : SendInv { (tcpSendSegment ready s (TCP_FLAGS_RST ||| TCP_FLAGS_ACK) 0).1 with
      pcb := { (tcpSendSegment ready s (TCP_FLAGS_RST ||| TCP_FLAGS_ACK) 0).1.pcb with
        state := .closed } } := by
    have hspan : segmentSpan (TCP_FLAGS_RST ||| TCP_FLAGS_ACK) 0 = 0 := by decide
    have hpcb := tcpSendSegment_pcb ready s (TCP_FLAGS_RST ||| TCP_FLAGS_ACK) 0
    rw [hspan] at hpcb
    refine SameSend.inv (s := s) ⟨?_, ?_, ?_, ?_, controlOctet_le _, nofun⟩ h
    · dsimp only
      rw [hpcb]
    · dsimp only
      rw [hpcb]
      cases ready <;> simp
    · dsimp only
      rw [hpcb]
    · dsimp only
      rw [hpcb]
  unfold auTCPClose
  split
  · next hs =>
    refine ⟨h.fin ready ?_ rfl nofun, huna _⟩
    rw [hs] at hw
    exact hw
  · next hs => exact ⟨h.fin ready (hok hs) rfl nofun, huna _⟩
  · next hs =>
    refine ⟨h.fin ready ?_ rfl nofun, huna _⟩
    rw [hs] at hw
    exact hw
  · have hclosed : SameSend s { s with pcb := { s.pcb with state := .closed } } :=
      ⟨rfl, rfl, rfl, rfl, controlOctet_le _, nofun⟩
    exact ⟨hclosed.inv h, rfl⟩
  · exact ⟨h, rfl⟩
  · exact ⟨h, rfl⟩
  · exact ⟨hrst, huna _⟩

/-! ## Segments -/

theorem handleAck_una (s : AuSocket) (tcp : TCPHeader) : (tcpHandleAck s tcp).pcb.snd_una =
    if Acceptable s tcp then tcp.ackNum else s.pcb.snd_una := rfl

/-- Only an acknowledgement of all that was sent changes the state. -/
theorem handleAck_state (hne : tcp.ackNum ≠ s.pcb.snd_nxt) :
    (tcpHandleAck s tcp).pcb.state = s.pcb.state := by
  simp [tcpHandleAck, hne]

theorem handleAck_synSent (hs : s.pcb.state ≠ .synSent) :
    (tcpHandleAck s tcp).pcb.state ≠ .synSent := by
  by_cases heq : tcp.ackNum = s.pcb.snd_nxt
  · unfold tcpHandleAck
    cases hst : s.pcb.state <;> simp [heq, hst] at hs ⊢
  · rw [handleAck_state heq]
    exact hs

/-- What is outstanding after an acknowledgement. -/
theorem handleAck_outstanding (s : AuSocket) (tcp : TCPHeader) :
    outstanding (tcpHandleAck s tcp) =
      if Acceptable s tcp then ahead tcp.ackNum s.pcb.snd_nxt else outstanding s := by
  unfold outstanding
  rw [handleAck_una]
  show ahead (if Acceptable s tcp then tcp.ackNum else s.pcb.snd_una) s.pcb.snd_nxt = _
  split_ifs <;> rfl

/-- An acknowledgement of all that was sent leaves nothing outstanding. -/
theorem SendInv.ack_all (h : SendInv s) (heq : tcp.ackNum = s.pcb.snd_nxt) :
    outstanding (tcpHandleAck s tcp) = 0 := by
  rw [handleAck_outstanding, heq]
  split_ifs with hacc
  · exact ahead_self _
  · have hw := h.window
    have hlt := s.pcb.snd_wnd.isLt
    have hc := controlOctet_le s.pcb.state
    have hpos : ¬ 0 < (tcp.ackNum - s.pcb.snd_una).toInt := by
      intro hpos
      exact hacc ⟨hpos, by rw [heq]; simp⟩
    rw [heq, toInt_sub_pos (by decide)] at hpos
    unfold outstanding at hw ⊢
    by_contra hne
    exact hpos ⟨Nat.pos_of_ne_zero hne, by omega⟩

theorem SendInv.handleAck (h : SendInv s) (hs : s.pcb.state ≠ .synSent) (hok : Covers s tcp) :
    SendInv (tcpHandleAck s tcp) ∧ Forward s (tcpHandleAck s tcp) := by
  have hi : SendInv (tcpHandleAck s tcp) := by
    refine SendInv.of_window ?_ fun hsyn => absurd hsyn (handleAck_synSent hs)
    by_cases heq : tcp.ackNum = s.pcb.snd_nxt
    · rw [h.ack_all heq]
      exact Nat.zero_le _
    · rw [handleAck_state heq, handleAck_outstanding]
      exact hok
  refine ⟨hi, ?_⟩
  have hspan := h.span
  unfold outstanding at hspan
  unfold Forward
  rw [handleAck_una]
  refine ⟨?_, hspan⟩
  split_ifs with hacc
  · have hsum := ahead_of_between (by decide) hacc.1 hacc.2
    show ahead _ _ ≤ ahead _ s.pcb.snd_nxt
    omega
  · rw [ahead_self]
    exact Nat.zero_le _

theorem SameSend.payload (s : AuSocket) (tcp : TCPHeader) (payload : List UInt8) :
    SameSend s (tcpHandlePayload s tcp payload).1 := by
  unfold tcpHandlePayload
  split_ifs
  · exact .refl s
  · exact .refl s
  · exact .refl s
  · dsimp only
    split_ifs
    · exact ⟨rfl, rfl, rfl, rfl, Nat.le_refl _, id⟩
    · exact ⟨rfl, rfl, rfl, rfl, Nat.le_refl _, id⟩

theorem SameSend.handleFin (s : AuSocket) (tcp : TCPHeader) (n : ℕ) :
    SameSend s (tcpHandleFin s tcp n).1 := by
  have hoctet : ∀ x, controlOctet x ≤ controlOctet (finState x) := by
    intro x
    cases x <;> decide
  have hsyn : ∀ x, finState x = .synSent → x = .synSent := by
    intro x hx
    cases x <;> simp [finState] at hx ⊢
  unfold tcpHandleFin
  split_ifs
  · exact ⟨rfl, rfl, rfl, rfl, hoctet _, hsyn _⟩
  · exact .refl s

/-- After the acknowledgement, the handler does nothing to the send side. -/
theorem SameSend.established (ready : Bool) (s : AuSocket) (tcp : TCPHeader)
    (payload : List UInt8) : SameSend
      (if has tcp.flags TCP_FLAGS_ACK then tcpHandleAck s tcp else s)
      (tcpHandleEstablished ready s tcp payload) := by
  unfold tcpHandleEstablished
  generalize (if has tcp.flags TCP_FLAGS_ACK then tcpHandleAck s tcp else s) = s'
  dsimp only
  have hpay := SameSend.payload s' tcp payload
  generalize tcpHandlePayload s' tcp payload = r at hpay ⊢
  have hfin := SameSend.handleFin r.1 tcp payload.length
  generalize tcpHandleFin r.1 tcp payload.length = f at hfin ⊢
  split_ifs
  · exact .refl s'
  · exact hpay.trans (.sendAck ready _)
  · exact (hpay.trans hfin).trans (.sendAck ready _)
  · exact hpay.trans hfin

theorem Forward.same {t : AuSocket} (h : Forward s s') (hs : SameSend s' t) : Forward s t := by
  unfold Forward at h ⊢
  rw [hs.snd_una, hs.snd_nxt]
  exact h

theorem SendInv.established (h : SendInv s) (hs : s.pcb.state ≠ .synSent)
    (hok : has tcp.flags TCP_FLAGS_ACK → Covers s tcp) (ready : Bool) (payload : List UInt8) :
    SendInv (tcpHandleEstablished ready s tcp payload) ∧
      Forward s (tcpHandleEstablished ready s tcp payload) := by
  have hsame := SameSend.established ready s tcp payload
  have hack : SendInv (if has tcp.flags TCP_FLAGS_ACK then tcpHandleAck s tcp else s) ∧
      Forward s (if has tcp.flags TCP_FLAGS_ACK then tcpHandleAck s tcp else s) := by
    split_ifs with hf
    · exact h.handleAck hs (hok hf)
    · exact ⟨h, h.forward rfl⟩
  exact ⟨hsame.inv hack.1, hack.2.same hsame⟩

theorem SendInv.synSent (h : SendInv s) (hs : s.pcb.state = .synSent)
    (hok : has tcp.flags TCP_FLAGS_SYN ∧ has tcp.flags TCP_FLAGS_ACK ∧
      tcp.ackNum = s.pcb.iss + 1 → s.pcb.snd_nxt = s.pcb.iss + 1) (ipv6 ready : Bool) :
    SendInv (tcpHandleSynSent ipv6 ready s tcp) ∧
      Forward s (tcpHandleSynSent ipv6 ready s tcp) := by
  unfold tcpHandleSynSent
  split_ifs with hboth hne hsyn
  · exact ⟨h, h.forward rfl⟩
  · have hnxt := hok ⟨hboth.1, hboth.2, not_not.mp hne⟩
    have hack : tcp.ackNum = s.pcb.snd_nxt := (not_not.mp hne).trans hnxt.symm
    -- the SYN is acknowledged, and nothing else was sent
    generalize hs' : ({ s with
      pcb := { s.pcb with
        irs := tcp.sequenceNum
        rcv_nxt := tcp.sequenceNum + 1
        snd_una := tcp.ackNum
        snd_wnd := tcp.window
        state := .established }
      sockState := .connected } : AuSocket) = s'
    have huna : s'.pcb.snd_una = s.pcb.snd_nxt := by
      rw [← hs']
      exact hack
    have hnxt' : s'.pcb.snd_nxt = s.pcb.snd_nxt := by rw [← hs']
    have hstate : s'.pcb.state = .established := by rw [← hs']
    have hi : SendInv s' := by
      refine SendInv.of_window ?_ fun hsyn => ?_
      · unfold outstanding
        rw [huna, hnxt', ahead_self]
        exact Nat.zero_le _
      · rw [hstate] at hsyn
        cases hsyn
    have hfwd : Forward s s' := by
      unfold Forward
      rw [huna, hnxt']
      exact ⟨Nat.le_refl _, h.span⟩
    have hsame := SameSend.sendAck ready s'
    exact ⟨hsame.inv hi, hfwd.same hsame⟩
  · have hi : SendInv (tcpSendSegment ready { s with pcb := { s.pcb with
        irs := tcp.sequenceNum
        rcv_nxt := tcp.sequenceNum + 1
        state := .synReceived
        snd_nxt := s.pcb.iss } } (TCP_FLAGS_SYN ||| TCP_FLAGS_ACK) 0).1 :=
      SendInv.syn_sent ready (by decide) (h.syn hs) rfl nofun
    exact ⟨hi, hi.forward (by rw [tcpSendSegment_pcb])⟩
  · exact ⟨h, h.forward rfl⟩

theorem SendInv.packet (h : SendInv s) {ipv6 ready : Bool} {payload : List UInt8}
    (hok : SendOk s (.segment ipv6 ready tcp payload)) :
    SendInv (tcpHandlePacket ipv6 ready s tcp payload) ∧
      Forward s (tcpHandlePacket ipv6 ready s tcp payload) := by
  unfold tcpHandlePacket
  by_cases hrst : has tcp.flags TCP_FLAGS_RST = true
  · have hclosed : SameSend s { s with
        pcb := { s.pcb with state := .closed }, sockState := .connectionRst } :=
      ⟨rfl, rfl, rfl, rfl, controlOctet_le _, nofun⟩
    rw [if_pos hrst]
    exact ⟨hclosed.inv h, (hclosed.inv h).forward rfl⟩
  · simp only [SendOk, if_neg hrst] at hok
    rw [if_neg hrst]
    cases hs : s.pcb.state with
    | listen => exact ⟨h, h.forward rfl⟩
    | synSent =>
      rw [hs] at hok
      exact h.synSent hs hok ipv6 ready
    | _ =>
      rw [hs] at hok
      exact h.established (by rw [hs]; nofun) hok ready payload

theorem SendInv.step (h : SendInv s) {act : SendAct} (hok : SendOk s act) :
    SendInv (sendStep s act) ∧ SendRight s act := by
  have key : SendInv (sendStep s act) → (sendStep s act).pcb.snd_una = s.pcb.snd_una →
      (∀ ready len, act ≠ .send ready len) → SendInv (sendStep s act) ∧ SendRight s act := by
    intro hi hu hne
    exact ⟨hi, fun _ => hi.forward hu, fun ready len ha => absurd ha (hne ready len)⟩
  cases act with
  | connect nonblock ready rand =>
    by_cases hstart : startsHandshake nonblock s = true
    · have heq : sendStep s (.connect nonblock ready rand) = auTCPConnect ready rand s :=
        if_pos hstart
      refine ⟨heq ▸ sendInv_connect ready rand s, fun hb => ?_, nofun⟩
      exact absurd hstart (by rw [show startsHandshake nonblock s = false from hb]; simp)
    · have hsame : SameSend s (sendStep s (.connect nonblock ready rand)) := by
        simp only [sendStep, if_neg hstart]
        split_ifs
        · exact .of_pcb rfl
        · exact .refl s
      exact key (hsame.inv h) hsame.snd_una nofun
  | listenSyn ready rand tcp =>
    exact ⟨sendInv_listenSyn ready rand tcp, nofun, nofun⟩
  | connectPoll late ready =>
    obtain ⟨hi, hu⟩ := h.connectPoll late ready
    exact key hi hu nofun
  | connectWait late ready attempts =>
    obtain ⟨hi, hu⟩ := h.connectWait late ready attempts
    exact key hi hu nofun
  | segment ipv6 ready tcp payload =>
    obtain ⟨hi, hf⟩ := h.packet hok
    exact ⟨hi, fun _ => hf, nofun⟩
  | receive ready want =>
    obtain ⟨hi, hu⟩ := h.receive ready want
    exact key hi hu nofun
  | send ready len =>
    obtain ⟨hi, hu, hpay⟩ := h.send ready hok
    exact ⟨hi, fun _ => hi.forward hu, fun ready' len' ha hne => hpay hne⟩
  | listen =>
    have hsame : SameSend s (auTCPListen s) := ⟨rfl, rfl, rfl, rfl, controlOctet_le _, nofun⟩
    exact key (hsame.inv h) rfl nofun
  | close ready =>
    obtain ⟨hi, hu⟩ := h.close ready hok
    exact key hi hu nofun

theorem sendInv_init : SendInv tcpAllocSocket := SendInv.of_window (by decide) (by decide)

/-- In a run that keeps within the window, the send side is right in every state, and no step
moves the acknowledged part backwards or past what was sent. -/
theorem exec_sendWindow (acts : List SendAct) (h : Respects SendOk sendStep tcpAllocSocket acts) :
    SendWindow (run sendStep tcpAllocSocket acts) ∧
      Respects SendRight sendStep tcpAllocSocket acts := by
  constructor
  · have hinv := h.invariant (I := SendInv) (fun s act hi hok => (hi.step hok).1) sendInv_init
    exact hinv.toSendWindow
  · exact h.imp (I := SendInv) (fun s act hi hok => hi.step hok) sendInv_init

/-- A connection that sends twice and closes, with an old acknowledgement in between. -/
def windowRun : List SendAct :=
  [.connect true true 5, .segment false true ⟨9, 6, TCP_FLAGS_SYN ||| TCP_FLAGS_ACK, 100⟩ [],
    .send (fun _ => true) 60, .segment false true ⟨10, 6, TCP_FLAGS_ACK, 100⟩ [],
    .segment false true ⟨10, 66, TCP_FLAGS_ACK, 100⟩ [], .send (fun _ => true) 100, .close true]

theorem exec_sendWindow_twice :
    SendWindow (run sendStep tcpAllocSocket windowRun) ∧
      Respects SendRight sendStep tcpAllocSocket windowRun :=
  exec_sendWindow windowRun (by decide +kernel)

/-- A window of 100 does not stop a call that sends 2000 bytes. -/
theorem not_exec_sendWindow :
    ¬ ∀ acts, SendWindow (run sendStep tcpAllocSocket acts) ∧
      Respects SendRight sendStep tcpAllocSocket acts := by
  intro h
  have hw := (h [.connect true true 5,
    .segment false true ⟨9, 6, TCP_FLAGS_SYN ||| TCP_FLAGS_ACK, 100⟩ [],
    .send (fun _ => true) 2000]).1.window
  exact absurd hw (by decide +kernel)

end Xeneva.Net
