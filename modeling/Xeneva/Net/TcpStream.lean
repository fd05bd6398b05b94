import Xeneva.Base.InOrder
import Xeneva.Net.Tcp

/-!
# The receive stream

The receive side of a connection simulates the receiver in order: what it accepts is the
next part of the peer's stream, and it takes the end of the stream for reached when it has
all of it. It does so under the condition `SegmentFits`. Where a segment carries a FIN and a
payload that the buffer refuses, the code accepts the FIN alone.
-/

namespace Xeneva.Net
open Base

variable {s s' : AuSocket} {c : Conn} {p : Peer} {g : Segment} {ready synced : Bool}

/-! ## Functions that leave the receive side alone -/

structure SameRx (s s' : AuSocket) : Prop where
  rxbuf : s'.pcb.rxbuf = s.pcb.rxbuf
  fin_recvd : s'.pcb.fin_recvd = s.pcb.fin_recvd
  irs : s'.pcb.irs = s.pcb.irs
  rcv_nxt : s'.pcb.rcv_nxt = s.pcb.rcv_nxt
  state : s'.pcb.state = .closeWait ∨ s'.pcb.state = .synSent → s'.pcb.state = s.pcb.state

theorem SameRx.refl (s : AuSocket) : SameRx s s := ⟨rfl, rfl, rfl, rfl, fun _ => rfl⟩

theorem SameRx.trans {s'' : AuSocket} (h : SameRx s s') (h' : SameRx s' s'') : SameRx s s'' where
  rxbuf := h'.rxbuf.trans h.rxbuf
  fin_recvd := h'.fin_recvd.trans h.fin_recvd
  irs := h'.irs.trans h.irs
  rcv_nxt := h'.rcv_nxt.trans h.rcv_nxt
  state hs := by
    have heq := h'.state hs
    rw [heq] at hs
    exact heq.trans (h.state hs)

/-- A state other than the two with a meaning for the receive side may be set freely. -/
theorem SameRx.setState (s : AuSocket) {state : TCPState}
    (hs : state ≠ .closeWait ∧ state ≠ .synSent) :
    SameRx s { s with pcb := { s.pcb with state } } :=
  ⟨rfl, rfl, rfl, rfl, fun h => h.elim (absurd · hs.1) (absurd · hs.2)⟩

theorem SameRx.sendSegment (ready : Bool) (s : AuSocket) (flags : BitVec 16) (n : ℕ) :
    SameRx s (tcpSendSegment ready s flags n).1 := by
  cases ready with
  | false => exact .refl s
  | true => exact ⟨rfl, rfl, rfl, rfl, fun _ => rfl⟩

theorem SameRx.sendAck (ready : Bool) (s : AuSocket) : SameRx s (tcpSendAck ready s) :=
  .sendSegment ..

theorem SameRx.sendLoop (ready : ℕ → Bool) (n : ℕ) (s : AuSocket) (remaining : ℕ) :
    SameRx s (auTCPSendLoop ready n s remaining) := by
  induction n generalizing s remaining with
  | zero => exact .refl s
  | succ n ih =>
    unfold auTCPSendLoop
    by_cases h0 : remaining = 0
    · rw [if_pos h0]
      exact .refl s
    · rw [if_neg h0]
      dsimp only
      generalize (if remaining > s.pcb.mss then s.pcb.mss else remaining) = chunk
      by_cases hs : ¬ (tcpSendSegment (ready n) s (TCP_FLAGS_ACK ||| TCP_FLAGS_PSH) chunk).2
      · rw [if_pos hs]
        exact .sendSegment ..
      · rw [if_neg hs]
        exact (SameRx.sendSegment ..).trans (ih ..)

theorem SameRx.send (ready : ℕ → Bool) (s : AuSocket) (len : ℕ) :
    SameRx s (auTCPSend ready s len) := by
  unfold auTCPSend
  split_ifs
  · exact .refl s
  · exact .sendLoop ..

theorem SameRx.resendSyn (ready : Bool) (s : AuSocket) : SameRx s (tcpResendSyn ready s).1 := by
  have h : SameRx s { s with pcb := { s.pcb with snd_nxt := s.pcb.iss } } :=
    ⟨rfl, rfl, rfl, rfl, fun _ => rfl⟩
  exact h.trans (.sendSegment ..)

theorem SameRx.connectPoll (late ready : Bool) (s : AuSocket) :
    SameRx s (auTCPConnectPoll late ready s) := by
  unfold auTCPConnectPoll
  split_ifs
  · exact .refl s
  · exact ⟨rfl, rfl, rfl, rfl, fun _ => rfl⟩
  · exact .refl s
  · exact .setState s (by simp)
  · exact (SameRx.resendSyn ready s).trans ⟨rfl, rfl, rfl, rfl, fun _ => rfl⟩
  · exact .refl s

theorem SameRx.connectWait (late ready : Bool) (attempts : ℕ) (s : AuSocket) :
    SameRx s (auTCPConnectWait late ready attempts s) := by
  unfold auTCPConnectWait
  split_ifs
  · exact .refl s
  · exact .setState s (by simp)
  · exact .resendSyn ready s

theorem SameRx.close (ready : Bool) (s : AuSocket) : SameRx s (auTCPClose ready s) := by
  unfold auTCPClose
  split
  · exact (SameRx.sendSegment ..).trans (.setState _ (by simp))
  · exact (SameRx.sendSegment ..).trans (.setState _ (by simp))
  · exact (SameRx.sendSegment ..).trans (.setState _ (by simp))
  · exact .setState s (by simp)
  · exact .refl s
  · exact .refl s
  · exact (SameRx.sendSegment ..).trans (.setState _ (by simp))

theorem SameRx.handleAck (s : AuSocket) (tcp : TCPHeader) : SameRx s (tcpHandleAck s tcp) := by
  refine ⟨rfl, rfl, rfl, rfl, ?_⟩
  unfold tcpHandleAck
  dsimp only
  split_ifs <;> simp_all

/-! ## The simulation -/

/-- The place of the receiver when the SYN has place zero and the stream starts at one. -/
def place (r : Receiver p.stream) : ℕ := 1 + r.accepted + r.finished.toNat

/-- The socket's receive side stands for the receiver `r`. -/
structure Sim (p : Peer) (s : AuSocket) (synced : Bool) (r : Receiver p.stream) : Prop where
  wf : s.pcb.rxbuf.WF
  max_eq : s.pcb.rxbuf.max = TCP_RX_BUF_SZ
  contents : s.pcb.rxbuf.contents = r.waiting
  fin_recvd : s.pcb.fin_recvd = r.finished
  synced_at : synced → s.pcb.irs = p.irs ∧ s.pcb.rcv_nxt = p.irs + BitVec.ofNat 32 (place r) ∧
    s.pcb.state ≠ .synSent
  unsynced : ¬ synced → r = .start p.stream
  closeWait : s.pcb.state = .closeWait → s.pcb.fin_recvd

variable {r : Receiver p.stream}

theorem Sim.congr (h : Sim p s synced r) (hs : SameRx s s') : Sim p s' synced r where
  wf := by rw [hs.rxbuf]; exact h.wf
  max_eq := by rw [hs.rxbuf, h.max_eq]
  contents := by rw [hs.rxbuf, h.contents]
  fin_recvd := by rw [hs.fin_recvd, h.fin_recvd]
  synced_at hy := by
    obtain ⟨hirs, hnxt, hstate⟩ := h.synced_at hy
    refine ⟨by rw [hs.irs, hirs], by rw [hs.rcv_nxt, hnxt], fun heq => hstate ?_⟩
    rw [← hs.state (.inr heq), heq]
  unsynced := h.unsynced
  closeWait heq := by
    rw [hs.fin_recvd]
    exact h.closeWait (by rw [← hs.state (.inl heq), heq])

theorem Sim.size_eq (h : Sim p s synced r) :
    auCircBufSize s.pcb.rxbuf = r.accepted - r.read := by
  rw [← CircBuffer.contents_length, h.contents, r.waiting_length]

/-- The window is no more than the room that is left. -/
theorem tcpWindowOf_le (s : AuSocket) :
    (tcpWindowOf s).toNat ≤ TCP_RX_BUF_SZ - auCircBufSize s.pcb.rxbuf := by
  unfold tcpWindowOf
  dsimp only
  split_ifs
  · exact Nat.zero_le _
  · exact Nat.le_of_lt ‹_›
  · rw [BitVec.toNat_ofNat]
    exact Nat.mod_le _ _

theorem Segment.payload_length (hg : g.From p) : (g.payload p).length = g.len := by
  have := hg.1
  simp [Segment.payload]
  omega

/-- A segment with the receiver's number and with a FIN or a payload that is taken lies at
the receiver's place, and its FIN does not come with a payload that is refused. -/
def Fits (p : Peer) (s : AuSocket) (synced : Bool) (place : ℕ) (g : Segment) : Prop :=
  (g.header p).sequenceNum = s.pcb.rcv_nxt →
    (has g.flags TCP_FLAGS_FIN ∨ (0 < g.len ∧ g.len ≤ (tcpWindowOf s).toNat)) →
    synced ∧ g.place = place ∧ (has g.flags TCP_FLAGS_FIN → g.len ≤ (tcpWindowOf s).toNat)

/-- A segment at the receiver's place starts with the next byte. -/
theorem in_place (hg : g.From p) (hp : g.place = place r) : g.off = r.accepted ∧ ¬ r.finished := by
  have hle := hg.1
  unfold Segment.place place at hp
  have hall := r.finished_all
  cases hf : r.finished with
  | false =>
    simp only [hf, Bool.toNat_false] at hp
    split_ifs at hp
    · omega
    · exact ⟨by omega, by simp⟩
  | true =>
    have := hall hf
    simp only [hf, Bool.toNat_true] at hp
    split_ifs at hp
    omega

theorem payload_taken {tcp : TCPHeader} {payload : List UInt8} (hwf : s.pcb.rxbuf.WF)
    (hmax : s.pcb.rxbuf.max = TCP_RX_BUF_SZ) (hseq : tcp.sequenceNum = s.pcb.rcv_nxt)
    (h0 : payload.length ≠ 0) (hwin : ¬ (tcpWindowOf s).toNat < payload.length) :
    ∃ rxbuf, tcpHandlePayload s tcp payload =
      ({ s with pcb := { s.pcb with
          rxbuf
          rcv_nxt := s.pcb.rcv_nxt + BitVec.ofNat 32 payload.length } }, true, false) ∧
      rxbuf.WF ∧ rxbuf.max = TCP_RX_BUF_SZ ∧ rxbuf.contents = s.pcb.rxbuf.contents ++ payload := by
  -- there is room for the whole payload
  have hroom := tcpWindowOf_le s
  obtain ⟨c, hw, hc, hcmax, hcont⟩ := hwf.write payload (k := payload.length)
    (by rw [hmax]; omega)
  refine ⟨c, ?_, hc, hcmax.trans hmax, by rw [hcont, List.take_length]⟩
  unfold tcpHandlePayload
  rw [if_neg h0, if_neg (not_not.mpr hseq), if_neg hwin, hw]
  exact if_pos (Nat.pos_of_ne_zero h0)

theorem payload_refused {tcp : TCPHeader} {payload : List UInt8}
    (hseq : tcp.sequenceNum = s.pcb.rcv_nxt) (hwin : (tcpWindowOf s).toNat < payload.length) :
    tcpHandlePayload s tcp payload = (s, true, false) := by
  unfold tcpHandlePayload
  rw [if_neg (by omega), if_neg (not_not.mpr hseq), if_pos hwin]

/-- The payload part accepts the payload, or leaves the receive side alone. -/
theorem Sim.payload (h : Sim p s synced r) (hg : g.From p)
    (hfit : Fits p s synced (place r) g) {s' : AuSocket} {needAck done : Bool}
    (hs : tcpHandlePayload s (g.header p) (g.payload p) = (s', needAck, done)) :
    (s' = s ∧ (done = false → (g.header p).sequenceNum = s.pcb.rcv_nxt ∨ g.len = 0) ∧
        ((g.header p).sequenceNum = s.pcb.rcv_nxt →
          g.len = 0 ∨ (tcpWindowOf s).toNat < g.len)) ∨
      ∃ hacc : r.accepted + g.len ≤ p.stream.length,
        Sim p s' synced (r.accept g.len hacc) ∧ g.off = r.accepted ∧
          s'.pcb.rcv_nxt = s.pcb.rcv_nxt + BitVec.ofNat 32 g.len ∧
          (g.header p).sequenceNum = s.pcb.rcv_nxt := by
  have hlen := g.payload_length hg
  by_cases h0 : g.len = 0
  · have hnil : (g.payload p).length = 0 := hlen.trans h0
    unfold tcpHandlePayload at hs
    rw [if_pos hnil] at hs
    cases hs
    exact .inl ⟨rfl, fun _ => .inr h0, fun _ => .inl h0⟩
  by_cases hseq : (g.header p).sequenceNum = s.pcb.rcv_nxt
  swap
  · unfold tcpHandlePayload at hs
    rw [if_neg (hlen ▸ h0), if_pos hseq] at hs
    cases hs
    exact .inl ⟨rfl, nofun, fun h => absurd h hseq⟩
  by_cases hwin : (tcpWindowOf s).toNat < g.len
  · rw [payload_refused hseq (by rwa [hlen])] at hs
    cases hs
    exact .inl ⟨rfl, fun _ => .inl hseq, fun _ => .inr hwin⟩
  obtain ⟨hy, hplace, -⟩ := hfit hseq (.inr (by omega))
  obtain ⟨hoff, hfin⟩ := in_place hg hplace
  have hacc : r.accepted + g.len ≤ p.stream.length := hoff ▸ hg.1
  obtain ⟨c, hw, hwf, hmax, hcont⟩ :=
    payload_taken h.wf h.max_eq hseq (hlen ▸ h0) (by rwa [hlen])
  rw [hw, hlen] at hs
  cases hs
  refine .inr ⟨hacc, ?_, hoff, rfl, hseq⟩
  obtain ⟨hirs, hnxt, hstate⟩ := h.synced_at hy
  refine ⟨hwf, hmax, ?_, h.fin_recvd, fun _ => ⟨hirs, ?_, hstate⟩,
    fun hn => absurd hy hn, h.closeWait⟩
  · rw [r.accept_waiting, ← h.contents, hcont, ← hoff]
    rfl
  · have hpl : place (r.accept g.len hacc) = place r + g.len := by
      simp only [place, Receiver.accept]
      omega
    dsimp only
    rw [hnxt, hpl, BitVec.ofNat_add, BitVec.add_assoc]

theorem finState_ne (x : TCPState) (hx : x ≠ .synSent) : finState x ≠ .synSent := by
  cases x <;> simp_all [finState]

/-- A FIN taken at the end of what was accepted. -/
theorem Sim.finish (h : Sim p s synced r) (hy : synced) (hend : r.accepted = p.stream.length)
    (hn : ¬ r.finished) :
    Sim p { s with pcb := { s.pcb with
        rcv_nxt := s.pcb.rcv_nxt + 1
        fin_recvd := true
        state := finState s.pcb.state } } synced (r.finish hend) := by
  obtain ⟨hirs, hnxt, hstate⟩ := h.synced_at hy
  refine ⟨h.wf, h.max_eq, h.contents, rfl, fun _ => ⟨hirs, ?_, finState_ne _ hstate⟩,
    fun hn => absurd hy hn, fun _ => rfl⟩
  have hpl : place (r.finish hend) = place r + 1 := by
    simp only [place, Receiver.finish, Bool.eq_false_iff.mpr hn, Bool.toNat_true, Bool.toNat_false]
  dsimp only
  rw [hnxt, hpl, BitVec.ofNat_add, BitVec.add_assoc]
  rfl

/-- The FIN part takes the FIN once all before it is accepted. -/
theorem Sim.fin (h : Sim p s synced r) (hg : g.From p) (hfit : Fits p s synced (place r) g)
    {s' : AuSocket} {needAck : Bool}
    (hs : tcpHandlePayload s (g.header p) (g.payload p) = (s', needAck, false)) :
    ∃ r' : Receiver p.stream, Sim p (tcpHandleFin s' (g.header p) g.len).1 synced r' ∧
      r'.delivered = r.delivered ∧ (r.finished → r'.finished) := by
  unfold tcpHandleFin
  rcases h.payload hg hfit hs with ⟨rfl, hseq, hrefused⟩ | ⟨hacc, h', hoff, -, hseq⟩
  · split_ifs with hc
    · obtain ⟨hf, hc⟩ := hc
      -- no payload was accepted, so the FIN stands at the receiver's number
      have heq : (g.header p).sequenceNum = s'.pcb.rcv_nxt := by
        rcases hseq rfl with heq | h0
        · exact heq
        · simpa [h0] using hc
      obtain ⟨hy, hplace, hle⟩ := hfit heq (.inl hf)
      have h0 : g.len = 0 := by
        have := hle hf
        rcases hrefused heq with h0 | hlt <;> omega
      obtain ⟨hoff, hn⟩ := in_place hg hplace
      have hend := (hg.2.2 hf).2
      exact ⟨_, h.finish hy (by omega) hn, rfl, fun _ => rfl⟩
    · exact ⟨r, h, rfl, id⟩
  · split_ifs with hc
    · obtain ⟨hf, -⟩ := hc
      obtain ⟨hy, hplace, -⟩ := hfit hseq (.inl hf)
      obtain ⟨-, hn⟩ := in_place hg hplace
      have hend := (hg.2.2 hf).2
      exact ⟨_, h'.finish hy (show r.accepted + g.len = _ by omega) hn, rfl, fun _ => rfl⟩
    · exact ⟨_, h', rfl, id⟩

/-- `TCPHandleEstablished` accepts the payload and the FIN as the receiver does. -/
theorem Sim.established (h : Sim p s synced r) (hg : g.From p)
    (hfit : Fits p s synced (place r) g) (ready : Bool) :
    ∃ r' : Receiver p.stream,
      Sim p (tcpHandleEstablished ready s (g.header p) (g.payload p)) synced r' ∧
        r'.delivered = r.delivered ∧ (r.finished → r'.finished) := by
  unfold tcpHandleEstablished
  obtain ⟨s₀, hs₀⟩ : ∃ s₀, s₀ = (if has (g.header p).flags TCP_FLAGS_ACK then
      tcpHandleAck s (g.header p) else s) := ⟨_, rfl⟩
  have hsame : SameRx s s₀ := by
    rw [hs₀]
    split_ifs
    · exact .handleAck ..
    · exact .refl s
  have h₀ := h.congr hsame
  have hfit₀ : Fits p s₀ synced (place r) g := by
    unfold Fits tcpWindowOf at hfit ⊢
    rw [hsame.rcv_nxt, hsame.rxbuf]
    exact hfit
  rw [← hs₀]
  dsimp only
  by_cases hsyn : s₀.pcb.state = .synSent
  · rw [if_pos hsyn]
    exact ⟨r, h₀, rfl, id⟩
  rw [if_neg hsyn]
  rcases hp : tcpHandlePayload s₀ (g.header p) (g.payload p) with ⟨s₁, needAck, done⟩
  dsimp only
  cases done with
  | true =>
    rcases h₀.payload hg hfit₀ hp with ⟨rfl, -⟩ | ⟨hacc, h₁, -⟩
    · exact ⟨r, h₀.congr (.sendAck ..), rfl, id⟩
    · exact ⟨_, h₁.congr (.sendAck ..), rfl, id⟩
  | false =>
    obtain ⟨r', h', hd, hf⟩ := h₀.fin hg hfit₀ hp
    rw [g.payload_length hg]
    rcases hq : tcpHandleFin s₁ (g.header p) g.len with ⟨s₂, finAck⟩
    rw [hq] at h'
    refine ⟨r', ?_, hd, hf⟩
    simp only [Bool.false_eq_true, if_false]
    split_ifs
    · exact h'.congr (.sendAck ..)
    · exact h'

theorem sendSegment_state (ready : Bool) (s : AuSocket) (flags : BitVec 16) (n : ℕ) :
    (tcpSendSegment ready s flags n).1.pcb.state = s.pcb.state := by
  cases ready <;> rfl

/-- A socket that took the peer's SYN stands for the receiver at its start. -/
theorem Sim.sync (h : Sim p s synced r) (hn : ¬ synced) (hf : has g.flags TCP_FLAGS_SYN)
    (hbuf : s'.pcb.rxbuf = s.pcb.rxbuf) (hfin : s'.pcb.fin_recvd = s.pcb.fin_recvd)
    (hirs : s'.pcb.irs = (g.header p).sequenceNum)
    (hnxt : s'.pcb.rcv_nxt = (g.header p).sequenceNum + 1)
    (hst : s'.pcb.state = .established ∨ s'.pcb.state = .synReceived) : Sim p s' true r := by
  have hseq : (g.header p).sequenceNum = p.irs := by
    simp [Segment.header, Segment.place, hf]
  refine ⟨by rw [hbuf]; exact h.wf, by rw [hbuf, h.max_eq], by rw [hbuf, h.contents],
    by rw [hfin, h.fin_recvd], fun _ => ⟨by rw [hirs, hseq], ?_, ?_⟩, nofun, ?_⟩
  · rw [hnxt, hseq, h.unsynced hn]
    rfl
  · rcases hst with hst | hst <;> simp [hst]
  · rcases hst with hst | hst <;> simp [hst]

theorem Sim.synSent (h : Sim p s synced r) (hstate : s.pcb.state = .synSent) (ipv6 ready : Bool) :
    ∃ s', tcpHandleSynSent ipv6 ready s (g.header p) = s' ∧ Sim p s' (syncs synced s s') r := by
  refine ⟨_, rfl, ?_⟩
  have hn : ¬ synced := fun hy => (h.synced_at hy).2.2 hstate
  have hkeep : Sim p s (syncs synced s s) r := by simpa [syncs, hstate] using h
  have hdone : ∀ {s'}, s'.pcb.state = .established ∨ s'.pcb.state = .synReceived →
      Sim p s' true r → Sim p s' (syncs synced s s') r := by
    intro s' hst h'
    simpa [syncs, hstate, hst] using h'
  unfold tcpHandleSynSent
  split_ifs with hsa hack hs
  · exact hkeep
  · refine hdone (.inl (sendSegment_state ..)) (Sim.congr ?_ (.sendAck ..))
    exact h.sync hn hsa.1 rfl rfl rfl rfl (.inl rfl)
  · refine hdone (.inr (sendSegment_state ..)) (Sim.congr ?_ (.sendSegment ..))
    exact h.sync hn hs.1 rfl rfl rfl rfl (.inr rfl)
  · exact hkeep

/-- What the dispatch needs of a segment to keep the stream. -/
def Handled (p : Peer) (s : AuSocket) (synced : Bool) (place : ℕ) (g : Segment) : Prop :=
  ¬ has g.flags TCP_FLAGS_RST → s.pcb.state ≠ .listen → s.pcb.state ≠ .synSent →
    Fits p s synced place g

theorem packet_established (hr : ¬ has g.flags TCP_FLAGS_RST) (hl : s.pcb.state ≠ .listen)
    (hs : s.pcb.state ≠ .synSent) (ipv6 ready : Bool) :
    tcpHandlePacket ipv6 ready s (g.header p) (g.payload p) =
      tcpHandleEstablished ready s (g.header p) (g.payload p) := by
  refine (if_neg hr).trans ?_
  split <;> first | contradiction | rfl

theorem Sim.packet (h : Sim p s synced r) (hg : g.From p)
    (hfit : Handled p s synced (place r) g) (ipv6 ready : Bool) :
    ∃ (s' : AuSocket) (r' : Receiver p.stream),
      tcpHandlePacket ipv6 ready s (g.header p) (g.payload p) = s' ∧
        Sim p s' (syncs synced s s') r' ∧ r'.delivered = r.delivered ∧
        (r.finished → r'.finished) := by
  by_cases hrst : has g.flags TCP_FLAGS_RST
  · refine ⟨_, r, if_pos hrst, ?_, rfl, id⟩
    have hreset : SameRx s { s with
        pcb := { s.pcb with state := .closed }, sockState := .connectionRst } :=
      ⟨rfl, rfl, rfl, rfl, by simp⟩
    simpa [syncs] using h.congr hreset
  have hkeep : ∀ {s'}, s.pcb.state ≠ .synSent → syncs synced s s' = synced := by
    intro s' hs
    simp [syncs, hs]
  by_cases hl : s.pcb.state = .listen
  · refine ⟨s, r, (if_neg hrst).trans (by rw [hl]), ?_, rfl, id⟩
    rw [hkeep (by simp [hl])]
    exact h
  by_cases hs : s.pcb.state = .synSent
  · obtain ⟨s', hs', h'⟩ := h.synSent (g := g) hs ipv6 ready
    exact ⟨s', r, (if_neg hrst).trans (by rw [hs]; exact hs'), h', rfl, id⟩
  · obtain ⟨r', h', hd, hf⟩ := h.established hg (hfit hrst hl hs) ready
    refine ⟨_, r', packet_established hrst hl hs ipv6 ready, ?_, hd, hf⟩
    rw [hkeep hs]
    exact h'

theorem Sim.receive (h : Sim p s synced r)
    (hend : circBufEmpty s.pcb.rxbuf → s.pcb.state = .closed → s.pcb.fin_recvd)
    (ready : Bool) (want : ℕ) {s' : AuSocket} {res : RecvResult}
    (hs : auTCPReceive ready s want = (s', res)) :
    (res = .again ∧ s' = s) ∨ (res = .eof ∧ s' = s ∧ r.finished) ∨
      ∃ got, res = .bytes got ∧ Sim p s' synced (r.deliver want) ∧
        (r.deliver want).delivered = r.delivered ++ got := by
  unfold auTCPReceive at hs
  by_cases he : circBufEmpty s.pcb.rxbuf
  · rw [if_pos he] at hs
    split_ifs at hs with hc
    · cases hs
      refine .inr (.inl ⟨rfl, rfl, ?_⟩)
      rw [← h.fin_recvd]
      rcases hc with hf | hcw | hcl
      · exact hf
      · exact h.closeWait hcw
      · exact hend he hcl
    · cases hs
      exact .inl ⟨rfl, rfl⟩
  · rw [if_neg he] at hs
    obtain ⟨c, hr, hwf, hmax, hcont⟩ := h.wf.read want
    rw [hr] at hs
    dsimp only at hs
    have h' : Sim p { s with pcb := { s.pcb with rxbuf := c } } synced (r.deliver want) := by
      refine ⟨hwf, hmax.trans h.max_eq, ?_, h.fin_recvd, h.synced_at, fun hn => ?_, h.closeWait⟩
      · rw [hcont, h.contents, r.deliver_waiting]
      · have hr := h.unsynced hn
        subst hr
        simp [Receiver.deliver, Receiver.start]
    have hd : (r.deliver want).delivered = r.delivered ++ s.pcb.rxbuf.contents.take want := by
      rw [r.deliver_delivered, h.contents]
    split_ifs at hs
    · cases hs
      exact .inr (.inr ⟨_, rfl, h'.congr (.sendAck ..), hd⟩)
    · cases hs
      exact .inr (.inr ⟨_, rfl, h', hd⟩)

theorem receive_rxbuf (hwf : s.pcb.rxbuf.WF) (ready : Bool) (want : ℕ) :
    (auTCPReceive ready s want).1.pcb.rxbuf.WF ∧
      (auTCPReceive ready s want).1.pcb.rxbuf.max = s.pcb.rxbuf.max := by
  obtain ⟨c, hr, hc, hmax, -⟩ := hwf.read want
  unfold auTCPReceive
  rw [hr]
  dsimp only
  split_ifs
  · exact ⟨hwf, rfl⟩
  · exact ⟨hwf, rfl⟩
  · rw [(SameRx.sendAck ..).rxbuf]
    exact ⟨hc, hmax⟩
  · exact ⟨hc, hmax⟩

/-! ## Runs -/

/-- The receiver's place, as the connection shows it. -/
def Conn.place (c : Conn) : ℕ :=
  1 + (c.delivered.length + auCircBufSize c.sock.pcb.rxbuf) + c.sock.pcb.fin_recvd.toNat

/-- A handshake starts on a socket without bytes or a FIN of an earlier connection, a segment
that counts lies at the receiver's place with no FIN ahead of it, and nobody reads on after a
connection was given up before its end. -/
def SegmentFits (c : Conn) : Act → Prop
  | .connect _ nonblock _ _ => startsHandshake nonblock c.sock →
      circBufEmpty c.sock.pcb.rxbuf ∧ ¬ c.sock.pcb.fin_recvd
  | .segment _ _ g => ∀ p ∈ c.peer, g.From p → Handled p c.sock c.synced c.place g
  | .receive _ _ => c.peer.isSome → circBufEmpty c.sock.pcb.rxbuf →
      c.sock.pcb.state = .closed → c.sock.pcb.fin_recvd
  | _ => True

instance (p : Peer) (s : AuSocket) (synced : Bool) (place : ℕ) (g : Segment) :
    Decidable (Fits p s synced place g) := inferInstanceAs (Decidable (_ → _))

instance (p : Peer) (s : AuSocket) (synced : Bool) (place : ℕ) (g : Segment) :
    Decidable (Handled p s synced place g) := inferInstanceAs (Decidable (_ → _))

instance (c : Conn) : DecidablePred (SegmentFits c) := fun act => by
  cases act <;> unfold SegmentFits <;> infer_instance

structure ConnInv (c : Conn) : Prop where
  wf : c.sock.pcb.rxbuf.WF
  max_eq : c.sock.pcb.rxbuf.max = TCP_RX_BUF_SZ
  sim : ∀ p, c.peer = some p → ∃ r : Receiver p.stream, Sim p c.sock c.synced r ∧
    c.delivered = r.delivered ∧ (c.eof → r.finished)

theorem ConnInv.init : ConnInv .init :=
  ⟨CircBuffer.wf_initialise _ (by decide), rfl, nofun⟩

theorem ConnInv.sock (h : ConnInv c) (hs : SameRx c.sock s) : ConnInv { c with sock := s } where
  wf := by
    dsimp only
    rw [hs.rxbuf]
    exact h.wf
  max_eq := by
    dsimp only
    rw [hs.rxbuf, h.max_eq]
  sim p hp := by
    obtain ⟨r, hr, hd, he⟩ := h.sim p hp
    exact ⟨r, hr.congr hs, hd, he⟩

theorem Conn.place_eq {c : Conn} (hr : Sim p c.sock c.synced r) (hd : c.delivered = r.delivered) :
    c.place = Net.place r := by
  have h1 := r.read_le
  have h2 := r.accepted_le
  have hlen : c.delivered.length = r.read := by
    rw [hd, Receiver.delivered, List.length_take]
    omega
  rw [Conn.place, Net.place, hlen, hr.size_eq, hr.fin_recvd]
  omega

theorem SameRx.startHandshake (ready : Bool) (rand : BitVec 32) (s : AuSocket) :
    (auTCPConnect ready rand s).pcb.rxbuf = s.pcb.rxbuf ∧
      (auTCPConnect ready rand s).pcb.fin_recvd = s.pcb.fin_recvd ∧
      (auTCPConnect ready rand s).pcb.state = .synSent := by
  cases ready <;> exact ⟨rfl, rfl, rfl⟩

theorem ConnInv.connect (h : ConnInv c)
    (hc : circBufEmpty c.sock.pcb.rxbuf ∧ ¬ c.sock.pcb.fin_recvd)
    (p : Peer) (ready : Bool) (rand : BitVec 32) :
    ConnInv { sock := auTCPConnect ready rand c.sock, peer := some p, synced := false,
              delivered := [], eof := false } := by
  obtain ⟨hbuf, hfin, hst⟩ := SameRx.startHandshake ready rand c.sock
  refine ⟨by dsimp only; rw [hbuf]; exact h.wf, by dsimp only; rw [hbuf, h.max_eq], ?_⟩
  rintro _ ⟨⟩
  refine ⟨.start p.stream, ⟨by rw [hbuf]; exact h.wf, by rw [hbuf, h.max_eq], ?_, ?_, nofun,
    fun _ => rfl, by simp [hst]⟩, rfl, nofun⟩
  · rw [hbuf]
    refine (List.eq_nil_of_length_eq_zero ?_).trans rfl
    rw [CircBuffer.contents_length]
    exact h.wf.empty_iff.mp hc.1
  · rw [hfin]
    exact Bool.eq_false_iff.mpr hc.2

theorem ConnInv.listenSyn (hf : has g.flags TCP_FLAGS_SYN) (ready : Bool)
    (rand : BitVec 32) :
    ConnInv { sock := tcpHandleListenSyn ready rand (g.header p), peer := some p, synced := true,
              delivered := [], eof := false } := by
  obtain ⟨s, hs, hbuf, hfin, hst⟩ : ∃ s : AuSocket,
      SameRx s (tcpHandleListenSyn ready rand (g.header p)) ∧
      s.pcb.rxbuf = tcpAllocPCB.rxbuf ∧ s.pcb.fin_recvd = false ∧
      s.pcb.irs = (g.header p).sequenceNum ∧ s.pcb.rcv_nxt = (g.header p).sequenceNum + 1 ∧
      s.pcb.state = .synReceived :=
    ⟨_, .sendSegment .., rfl, rfl, rfl, rfl, rfl⟩
  have hseq : (g.header p).sequenceNum = p.irs := by
    simp [Segment.header, Segment.place, hf]
  have hwf : s.pcb.rxbuf.WF := by
    rw [hbuf]
    exact CircBuffer.wf_initialise _ (by decide)
  have hsim : Sim p s true (.start p.stream) := by
    refine ⟨hwf, by rw [hbuf]; rfl, by rw [hbuf]; rfl, hfin,
      fun _ => ⟨hst.1.trans hseq, ?_, by simp [hst.2.2]⟩, nofun, by simp [hst.2.2]⟩
    rw [hst.2.1, hseq]
    rfl
  have h' := hsim.congr hs
  exact ⟨h'.wf, h'.max_eq, fun _ hp => by cases hp; exact ⟨_, h', rfl, nofun⟩⟩

theorem ConnInv.segment (h : ConnInv c) (hp : c.peer = some p) (hg : g.From p)
    (hfit : Handled p c.sock c.synced c.place g) (ipv6 ready : Bool) :
    ConnInv { c with
      sock := tcpHandlePacket ipv6 ready c.sock (g.header p) (g.payload p)
      synced := syncs c.synced c.sock
        (tcpHandlePacket ipv6 ready c.sock (g.header p) (g.payload p)) } := by
  obtain ⟨r, hr, hd, he⟩ := h.sim p hp
  rw [Conn.place_eq hr hd] at hfit
  obtain ⟨s', r', hs', h', hd', hf'⟩ := hr.packet hg hfit ipv6 ready
  rw [hs']
  refine ⟨h'.wf, h'.max_eq, fun q hq => ?_⟩
  cases hp.symm.trans hq
  exact ⟨r', h', hd.trans hd'.symm, fun heof => hf' (he heof)⟩

theorem Conn.told_peer (c : Conn) (s : AuSocket) (res : RecvResult) :
    (c.told s res).peer = c.peer := by
  cases res <;> rfl

theorem Conn.told_sock (c : Conn) (s : AuSocket) (res : RecvResult) :
    (c.told s res).sock = s := by
  cases res <;> rfl

theorem ConnInv.receive (h : ConnInv c) (ready : Bool) (want : ℕ)
    (hend : SegmentFits c (.receive ready want)) {s' : AuSocket} {res : RecvResult}
    (hs : auTCPReceive ready c.sock want = (s', res)) : ConnInv (c.told s' res) := by
  have hbuf := receive_rxbuf h.wf ready want
  rw [hs] at hbuf
  refine ⟨by rw [c.told_sock]; exact hbuf.1, by rw [c.told_sock, hbuf.2, h.max_eq], ?_⟩
  rw [c.told_peer]
  intro p hp
  obtain ⟨r, hr, hd, he⟩ := h.sim p hp
  rcases hr.receive (hend (by rw [hp]; rfl)) ready want hs with
    ⟨rfl, rfl⟩ | ⟨rfl, rfl, hf⟩ | ⟨got, rfl, h', hdel⟩
  · exact ⟨r, hr, hd, he⟩
  · exact ⟨r, hr, hd, fun _ => hf⟩
  · exact ⟨_, h', (congrArg (· ++ got) hd).trans hdel.symm, he⟩

theorem ConnInv.step {act : Act} (h : ConnInv c) (hok : SegmentFits c act) :
    ConnInv (Net.step c act) := by
  cases act with
  | connect p nonblock ready rand =>
    unfold Net.step
    dsimp only
    split_ifs with hs
    · exact h.connect (hok hs) p ready rand
    · exact h.sock ⟨rfl, rfl, rfl, rfl, fun _ => rfl⟩
    · exact h
  | listenSyn p ready rand g =>
    unfold Net.step
    dsimp only
    split_ifs with hg
    · exact .listenSyn hg.2 ready rand
    · exact h
  | connectPoll late ready => exact h.sock (.connectPoll ..)
  | connectWait late ready attempts => exact h.sock (.connectWait ..)
  | segment ipv6 ready g =>
    unfold Net.step
    dsimp only
    cases hp : c.peer with
    | none => exact h
    | some p =>
      dsimp only
      split_ifs with hg
      · simpa only [hp] using h.segment hp hg (hok p hp hg) ipv6 ready
      · exact h
  | receive ready want => exact h.receive ready want hok rfl
  | send ready len => exact h.sock (.send ..)
  | listen => exact h.sock ⟨rfl, rfl, rfl, rfl, by simp [auTCPListen]⟩
  | close ready => exact h.sock (.close ..)

/-- What the reader got and what waits for it are the first part of the peer's stream, the
next sequence number counts it and the FIN, and the reader's end of file comes only after all
of it. -/
def StreamIntact (c : Conn) : Prop :=
  ∀ p, c.peer = some p → ∃ accepted ≤ p.stream.length,
    c.delivered ++ c.sock.pcb.rxbuf.contents = p.stream.take accepted ∧
    (c.synced → c.sock.pcb.irs = p.irs ∧ c.sock.pcb.rcv_nxt =
      p.irs + 1 + BitVec.ofNat 32 accepted + (if c.sock.pcb.fin_recvd then 1 else 0)) ∧
    (c.eof → accepted = p.stream.length)

theorem ConnInv.intact (h : ConnInv c) : StreamIntact c := by
  intro p hp
  obtain ⟨r, hr, hd, he⟩ := h.sim p hp
  refine ⟨r.accepted, r.accepted_le, ?_, fun hy => ?_, fun heof => r.finished_all (he heof)⟩
  · rw [hd, hr.contents, r.delivered_append_waiting]
  · obtain ⟨hirs, hnxt, -⟩ := hr.synced_at hy
    refine ⟨hirs, ?_⟩
    rw [hnxt, hr.fin_recvd, place, BitVec.ofNat_add, BitVec.ofNat_add, ← BitVec.add_assoc,
      ← BitVec.add_assoc]
    cases r.finished <;> rfl

/-- In a run whose segments fit, the stream is intact in every state. -/
theorem exec_streamIntact (acts : List Act) (h : Respects SegmentFits step .init acts) :
    StreamIntact (exec acts) ∧
      ∀ p, (exec acts).peer = some p → (exec acts).delivered <+: p.stream := by
  have hinv : ConnInv (exec acts) := h.invariant (fun _ _ hI hok => hI.step hok) .init
  refine ⟨hinv.intact, fun p hp => ?_⟩
  obtain ⟨r, -, hd, -⟩ := hinv.sim p hp
  rw [hd]
  exact List.take_prefix ..

/-- A peer that sends four bytes and ends. -/
def shortPeer : Peer := { irs := 7, stream := [1, 2, 3, 4], ends := true }

/-- Reordered, repeated and split segments, a reader in between, and the end. -/
def splitRun : List Act :=
  [.connect shortPeer false true 5,
    .segment false true ⟨0, 0, TCP_FLAGS_SYN ||| TCP_FLAGS_ACK, 6, 100⟩,
    .segment false true ⟨2, 2, TCP_FLAGS_ACK ||| TCP_FLAGS_FIN, 6, 100⟩,
    .segment false true ⟨0, 2, TCP_FLAGS_ACK, 6, 100⟩, .receive true 1,
    .segment false true ⟨0, 2, TCP_FLAGS_ACK, 6, 100⟩,
    .segment false true ⟨2, 2, TCP_FLAGS_ACK ||| TCP_FLAGS_FIN, 6, 100⟩,
    .receive true 9, .receive true 9]

theorem exec_streamIntact_split : StreamIntact (exec splitRun) ∧
    ∀ p, (exec splitRun).peer = some p → (exec splitRun).delivered <+: p.stream :=
  exec_streamIntact splitRun (by decide +kernel)

/-! ## The refused FIN -/

theorem acked_rx (s : AuSocket) (tcp : TCPHeader) :
    SameRx s (if has tcp.flags TCP_FLAGS_ACK then tcpHandleAck s tcp else s) := by
  split_ifs
  · exact .handleAck ..
  · exact .refl s

theorem tcpWindowOf_congr (hs : SameRx s s') : tcpWindowOf s' = tcpWindowOf s := by
  unfold tcpWindowOf
  rw [hs.rxbuf]

/-- A segment in order with a FIN and a payload that does not fit ends the stream, although
its payload is dropped. -/
theorem refused_fin {tcp : TCPHeader} {payload : List UInt8} (hs : s.pcb.state ≠ .synSent)
    (hseq : tcp.sequenceNum = s.pcb.rcv_nxt) (hwin : (tcpWindowOf s).toNat < payload.length)
    (hf : has tcp.flags TCP_FLAGS_FIN) (ready : Bool) :
    (tcpHandleEstablished ready s tcp payload).pcb.fin_recvd = true ∧
      (tcpHandleEstablished ready s tcp payload).pcb.rxbuf = s.pcb.rxbuf := by
  have hack := acked_rx s tcp
  unfold tcpHandleEstablished
  generalize (if has tcp.flags TCP_FLAGS_ACK then tcpHandleAck s tcp else s) = s₀ at hack
  have hs₀ : s₀.pcb.state ≠ .synSent := fun h => hs (by rw [← hack.state (.inr h), h])
  have hseq₀ : tcp.sequenceNum = s₀.pcb.rcv_nxt := hseq.trans hack.rcv_nxt.symm
  dsimp only
  rw [if_neg hs₀, payload_refused hseq₀ (by rwa [tcpWindowOf_congr hack])]
  have hfin : tcpHandleFin s₀ tcp payload.length = ({ s₀ with pcb := { s₀.pcb with
      rcv_nxt := s₀.pcb.rcv_nxt + 1
      fin_recvd := true
      state := finState s₀.pcb.state } }, true) := if_pos ⟨hf, .inr hseq₀⟩
  rw [hfin]
  simp only [Bool.false_eq_true, if_false, true_or, if_true]
  rw [(SameRx.sendAck ..).fin_recvd, (SameRx.sendAck ..).rxbuf]
  exact ⟨rfl, hack.rxbuf⟩

/-- A segment in order with a payload that fits and no FIN. -/
theorem taken_payload {tcp : TCPHeader} {payload : List UInt8} (hwf : s.pcb.rxbuf.WF)
    (hmax : s.pcb.rxbuf.max = TCP_RX_BUF_SZ) (hs : s.pcb.state ≠ .synSent)
    (hseq : tcp.sequenceNum = s.pcb.rcv_nxt) (h0 : payload.length ≠ 0)
    (hwin : ¬ (tcpWindowOf s).toNat < payload.length) (hf : ¬ has tcp.flags TCP_FLAGS_FIN)
    (ready : Bool) {s' : AuSocket} (hs' : tcpHandleEstablished ready s tcp payload = s') :
    s'.pcb.rxbuf.WF ∧
      auCircBufSize s'.pcb.rxbuf = auCircBufSize s.pcb.rxbuf + payload.length ∧
      s'.pcb.rcv_nxt = s.pcb.rcv_nxt + BitVec.ofNat 32 payload.length ∧
      s'.pcb.state = (if has tcp.flags TCP_FLAGS_ACK then tcpHandleAck s tcp else s).pcb.state := by
  have hack := acked_rx s tcp
  unfold tcpHandleEstablished at hs'
  generalize (if has tcp.flags TCP_FLAGS_ACK then tcpHandleAck s tcp else s) = s₀ at hack hs' ⊢
  have hs₀ : s₀.pcb.state ≠ .synSent := fun h => hs (by rw [← hack.state (.inr h), h])
  have hseq₀ : tcp.sequenceNum = s₀.pcb.rcv_nxt := hseq.trans hack.rcv_nxt.symm
  obtain ⟨c, hw, hc, -, hcont⟩ := payload_taken (by rw [hack.rxbuf]; exact hwf)
    (by rw [hack.rxbuf, hmax]) hseq₀ h0 (by rwa [tcpWindowOf_congr hack])
  dsimp only at hs'
  have hfin : ∀ s₁, tcpHandleFin s₁ tcp payload.length = (s₁, false) :=
    fun s₁ => if_neg fun h => hf h.1
  rw [if_neg hs₀, hw, hfin] at hs'
  simp only [Bool.false_eq_true, if_false, or_false, if_true] at hs'
  subst hs'
  refine ⟨?_, ?_, ?_, sendSegment_state ..⟩
  · rw [(SameRx.sendAck ..).rxbuf]
    exact hc
  · rw [(SameRx.sendAck ..).rxbuf, ← CircBuffer.contents_length, ← CircBuffer.contents_length,
      hcont, hack.rxbuf, List.length_append]
  · rw [(SameRx.sendAck ..).rcv_nxt, hack.rcv_nxt]

/-- A reader that asks for enough gets all there is, and after a FIN the end of file. -/
theorem drained (hwf : s.pcb.rxbuf.WF) (hfin : s.pcb.fin_recvd = true)
    (h0 : auCircBufSize s.pcb.rxbuf ≠ 0) {want : ℕ} (hw : auCircBufSize s.pcb.rxbuf ≤ want)
    (ready : Bool) :
    ∃ s' got, auTCPReceive ready s want = (s', .bytes got) ∧
      got.length = auCircBufSize s.pcb.rxbuf ∧
      (∀ n, auTCPReceive ready s' n = (s', .eof)) ∧ auCircBufSize s'.pcb.rxbuf = 0 := by
  obtain ⟨c, hr, hc, -, hcont⟩ := hwf.read want
  have hsize : auCircBufSize c = 0 := by
    rw [← c.contents_length, hcont, List.length_drop, s.pcb.rxbuf.contents_length]
    omega
  have he : ¬ circBufEmpty s.pcb.rxbuf := fun he => h0 (hwf.empty_iff.mp he)
  obtain ⟨s', hs', hbuf, hfin'⟩ : ∃ s', auTCPReceive ready s want =
      (s', .bytes (s.pcb.rxbuf.contents.take want)) ∧ s'.pcb.rxbuf = c ∧
        s'.pcb.fin_recvd = true := by
    unfold auTCPReceive
    rw [if_neg he, hr]
    dsimp only
    split_ifs
    · exact ⟨_, rfl, (SameRx.sendAck ..).rxbuf, (SameRx.sendAck ..).fin_recvd.trans hfin⟩
    · exact ⟨_, rfl, rfl, hfin⟩
  refine ⟨s', _, hs', ?_, fun n => ?_, by rw [hbuf, hsize]⟩
  · rw [List.length_take, CircBuffer.contents_length, Nat.min_eq_right hw]
  · unfold auTCPReceive
    rw [hbuf, if_pos (hc.empty_iff.mpr hsize), if_pos (.inl hfin')]

/-- A peer with more than the buffer holds. -/
def longPeer : Peer := { irs := 100, stream := List.replicate 66000 0, ends := true }

def longSyn : Segment := ⟨0, 0, TCP_FLAGS_SYN, 0, 1000⟩
def longData : Segment := ⟨0, 60000, TCP_FLAGS_ACK, 2, 1000⟩
def longEnd : Segment := ⟨60000, 6000, TCP_FLAGS_ACK ||| TCP_FLAGS_FIN, 2, 1000⟩

/-- The last segment has the FIN and does not fit; then the reader takes what there is. -/
def refusedRun : List Act :=
  [.listenSyn longPeer true 1 longSyn, .segment false true longData, .segment false true longEnd,
    .receive true 65536, .receive true 1]

theorem step_listenSyn (hg : g.From p) (hf : has g.flags TCP_FLAGS_SYN) (ready : Bool)
    (rand : BitVec 32) : step c (.listenSyn p ready rand g) =
      { sock := tcpHandleListenSyn ready rand (g.header p), peer := some p, synced := true,
        delivered := [], eof := false } := by
  simp only [step, hg, hf, and_self, if_true]

theorem step_receive (want : ℕ) {res : RecvResult}
    (hr : auTCPReceive ready c.sock want = (s', res)) :
    step c (.receive ready want) = c.told s' res := by
  simp only [step, hr]

theorem step_segment (hp : c.peer = some p) (hg : g.From p) (ipv6 ready : Bool) :
    step c (.segment ipv6 ready g) = { c with
      sock := tcpHandlePacket ipv6 ready c.sock (g.header p) (g.payload p)
      synced := syncs c.synced c.sock
        (tcpHandlePacket ipv6 ready c.sock (g.header p) (g.payload p)) } := by
  simp only [step, hp, hg, if_true]

/-- The reader is told of the end, while 6000 bytes before it are nowhere. -/
theorem not_exec_streamIntact : ¬ StreamIntact (exec refusedRun) := by
  have hlen : longPeer.stream.length = 66000 := List.length_replicate
  have hsyn : longSyn.From longPeer :=
    ⟨Nat.zero_le _, fun _ => rfl, fun h => absurd h (by decide)⟩
  have hdata : longData.From longPeer :=
    ⟨by rw [hlen]; simp [longData], fun _ => rfl, fun h => absurd h (by decide)⟩
  have hend : longEnd.From longPeer :=
    ⟨by rw [hlen]; simp [longEnd], fun h => absurd h (by decide), fun _ => ⟨rfl, hlen.symm⟩⟩
  -- the socket after the SYN, and the headers of the segments that follow
  obtain ⟨s₁, hs₁⟩ : ∃ s₁, s₁ = tcpHandleListenSyn true 1 ⟨100, 0, TCP_FLAGS_SYN, 1000⟩ := ⟨_, rfl⟩
  have hsynH : longSyn.header longPeer = ⟨100, 0, TCP_FLAGS_SYN, 1000⟩ := rfl
  have hendH : longEnd.header longPeer =
      ⟨101 + BitVec.ofNat 32 60000, 2, TCP_FLAGS_ACK ||| TCP_FLAGS_FIN, 1000⟩ := by decide
  have hst₁ : s₁.pcb.state = .synReceived := by rw [hs₁]; rfl
  have hbuf₁ : s₁.pcb.rxbuf = tcpAllocPCB.rxbuf := by rw [hs₁]; rfl
  have hnxt₁ : s₁.pcb.rcv_nxt = 101 := by rw [hs₁]; rfl
  have hack₁ : (tcpHandleAck s₁ (longData.header longPeer)).pcb.state = .established := by
    rw [hs₁]
    decide
  have hl₁ := longData.payload_length hdata
  have hl₂ := longEnd.payload_length hend
  obtain ⟨s₂, hs₂⟩ : ∃ s₂, tcpHandleEstablished true s₁ (longData.header longPeer)
    (longData.payload longPeer) = s₂ := ⟨_, rfl⟩
  obtain ⟨hwf₂, hsize₂, hnxt₂, hst₂⟩ := taken_payload
    (by rw [hbuf₁]; exact CircBuffer.wf_initialise _ (by decide)) (by rw [hbuf₁]; rfl)
    (by simp [hst₁]) (by rw [hnxt₁]; rfl) (by rw [hl₁]; decide)
    (by rw [hl₁]; unfold tcpWindowOf; rw [hbuf₁]; decide) (by decide) true hs₂
  have hsize₁ : auCircBufSize s₁.pcb.rxbuf = 0 := by rw [hbuf₁]; rfl
  rw [hsize₁, hl₁] at hsize₂
  rw [hnxt₁, hl₁] at hnxt₂
  have hst₂' : s₂.pcb.state = .established := hst₂.trans hack₁
  have hwin₂ : (tcpWindowOf s₂).toNat < (longEnd.payload longPeer).length := by
    rw [hl₂]
    unfold tcpWindowOf
    rw [hsize₂]
    decide
  have hseq₂ : (longEnd.header longPeer).sequenceNum = s₂.pcb.rcv_nxt := by
    rw [hnxt₂, hendH]
    rfl
  have hflag₂ : has (longEnd.header longPeer).flags TCP_FLAGS_FIN := by
    rw [hendH]
    decide
  obtain ⟨hfin, hbuf⟩ := refused_fin (by simp [hst₂']) hseq₂ hwin₂ hflag₂ true
  obtain ⟨s₃, hs₃⟩ : ∃ s₃, tcpHandleEstablished true s₂ (longEnd.header longPeer)
    (longEnd.payload longPeer) = s₃ := ⟨_, rfl⟩
  rw [hs₃] at hfin hbuf
  have hsize₃ : auCircBufSize s₃.pcb.rxbuf = 60000 := by rw [hbuf, hsize₂]; rfl
  obtain ⟨s₄, got, hread, hgot, heof, hsize₄⟩ := drained (by rw [hbuf]; exact hwf₂) hfin
    (by rw [hsize₃]; decide) (show _ ≤ 65536 by rw [hsize₃]; decide) true
  -- the run goes through these sockets
  have hexec : exec refusedRun = step (step (step (step (step .init
      (.listenSyn longPeer true 1 longSyn)) (.segment false true longData))
      (.segment false true longEnd)) (.receive true 65536)) (.receive true 1) := by
    rw [exec, refusedRun, run_cons, run_cons, run_cons, run_cons, run_cons, run_nil]
  rw [step_listenSyn hsyn (by decide), hsynH, ← hs₁, step_segment (p := longPeer) rfl hdata,
    packet_established (by decide) (by simp [hst₁]) (by simp [hst₁]), hs₂,
    step_segment (p := longPeer) rfl hend,
    packet_established (by decide) (by simp [hst₂']) (by simp [hst₂']), hs₃,
    step_receive 65536 hread, step_receive 1 (heof 1)] at hexec
  intro h
  rw [hexec] at h
  obtain ⟨accepted, -, hstream, -, hall⟩ := h longPeer rfl
  rw [hall rfl, List.take_length] at hstream
  have hcount := congrArg List.length hstream
  simp only [Conn.told, List.nil_append, List.length_append, CircBuffer.contents_length, hgot,
    hsize₃, hsize₄, hlen] at hcount
  omega

end Xeneva.Net
