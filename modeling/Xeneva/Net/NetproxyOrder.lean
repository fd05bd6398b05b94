import Xeneva.Net.NetproxySafe

/-!
# The frames of the network proxy

With a server that follows the protocol, every frame that is queued at one end of a ring comes out
at the other end, once and in order, however often the counters wrap.
-/

namespace Xeneva.Netproxy
open Base

variable {s s' : Machine} {t t' : ℕ} {r : RingRef} {a : Act} {frame : Frame} {ring : NetRing}

/-- The frame that a poll has taken and not handed on. -/
def Poller.hand : Poller → Option ℕ
  | .handle _ _ len => some len
  | _ => none

def Machine.Hand (s : Machine) (hand : List Frame) : Prop :=
  (∀ t len, (s.pollers t).hand = some len → hand = [memread s.rxcopy 0 len]) ∧
    ((∀ t, (s.pollers t).hand = none) → hand = [])

/-- What was queued at one end is what came out at the other, and after it what is still on its way
in the ring. -/
structure InOrder (s : Machine) : Prop where
  tx : ∀ r, s.hdr = some r → s.queued = s.taken ++ (s.rings r.ring_phys).txQueue
  rx : ∀ r, s.hdr = some r → ∃ hand, s.Hand hand ∧
    s.published = s.delivered ++ hand ++ (s.rings r.ring_phys).rxQueue

/-- The ring is attached, or about to be. -/
def Machine.InUse (s : Machine) (r : RingRef) : Prop :=
  s.hdr = some r ∨ ∃ t proc, s.attachers t = some (r, proc)

/-- A server that follows the protocol stores nothing else in a ring in use. -/
def Follows (s : Machine) : Act → Prop
  | .store phys _ => ∀ r, s.InUse r → r.ring_phys ≠ phys
  | _ => True

theorem slots_dvd : NETSRV_SLOTS ∣ 2 ^ 32 := by decide

theorem one_lt : 1 < 2 ^ 32 := by decide

theorem Slot.frame_length (slot : Slot) : slot.frame.length = slot.len.toNat := memread_length ..

theorem memread_memcpy (b : ℕ → UInt8) (frame : Frame) :
    memread (memcpy b 0 frame) 0 frame.length = frame := by
  apply List.ext_getElem (memread_length ..)
  intro i h₁ h₂
  simp only [memread, List.getElem_map, List.getElem_range]
  exact memcpy_get b 0 frame h₂

/-- A slot that was filled holds the frame. -/
theorem frame_filled (b : ℕ → UInt8) (h : frame.length ≤ NETSRV_MAX_FRAME) :
    (Slot.mk (BitVec.ofNat 32 frame.length) (memcpy b 0 frame)).frame = frame := by
  have hlen : (BitVec.ofNat 32 frame.length).toNat = frame.length := by
    rw [BitVec.toNat_ofNat]
    apply Nat.mod_eq_of_lt
    unfold NETSRV_MAX_FRAME NETSRV_SLOT_SIZE NETSRV_SLOT_HDR at h
    omega
  unfold Slot.frame
  rw [hlen]
  exact memread_memcpy b frame

/-- The transmit ring holds what the server has not taken, and a frame that is not published yet is
behind it. -/
structure TxInv (s : Machine) (ring : NetRing) : Prop where
  queued : s.queued = s.taken ++ ring.txQueue
  room : ahead ring.hdr.tx_tail ring.hdr.tx_head ≤ NETSRV_SLOTS
  filled : ∀ t h head frame, s.writers t = .filled h head frame → head = ring.hdr.tx_head ∧
    ahead ring.hdr.tx_tail head < NETSRV_SLOTS ∧ (ring.tx (slotOf head)).frame = frame

/-- The receive ring holds what the kernel has not taken; a frame that a poll has copied is still the
first in it. -/
structure RxInv (s : Machine) (ring : NetRing) : Prop where
  published : ∃ hand, s.Hand hand ∧ s.published = s.delivered ++ hand ++ ring.rxQueue
  room : ahead ring.hdr.rx_tail ring.hdr.rx_head ≤ NETSRV_SLOTS
  valid : ∀ f ∈ ring.rxQueue, 14 ≤ f.length ∧ f.length ≤ NETSRV_MAX_FRAME
  copied : ∀ t h budget tail len, s.pollers t = .copied h budget tail len →
    tail = ring.hdr.rx_tail ∧ ring.hdr.rx_tail ≠ ring.hdr.rx_head ∧
      memread s.rxcopy 0 len = (ring.rx (slotOf tail)).frame
  good : ∀ t h budget tail, s.pollers t ≠ .bad h budget tail

theorem TxInv.congr {ring' : NetRing} (hi : TxInv s ring) (hq : s'.queued = s.queued)
    (ht : s'.taken = s.taken) (hw : ∀ t h head frame, s'.writers t = .filled h head frame →
      s.writers t = .filled h head frame) (hslots : ring'.tx = ring.tx)
    (hhead : ring'.hdr.tx_head = ring.hdr.tx_head)
    (htail : ring'.hdr.tx_tail = ring.hdr.tx_tail) : TxInv s' ring' := by
  obtain ⟨h1, h2, h3⟩ := hi
  constructor
  · rw [hq, ht, h1]
    unfold NetRing.txQueue
    rw [hslots, hhead, htail]
  · rw [hhead, htail]
    exact h2
  · intro t h head frame hf
    rw [hslots, hhead, htail]
    exact h3 t h head frame (hw t h head frame hf)

theorem RxInv.congr {ring' : NetRing} (hi : RxInv s ring) (hp : s'.published = s.published)
    (hd : s'.delivered = s.delivered) (hcopy : s'.rxcopy = s.rxcopy)
    (hpoll : s'.pollers = s.pollers) (hslots : ring'.rx = ring.rx)
    (hhead : ring'.hdr.rx_head = ring.hdr.rx_head)
    (htail : ring'.hdr.rx_tail = ring.hdr.rx_tail) : RxInv s' ring' := by
  have hqueue : ring'.rxQueue = ring.rxQueue := by
    unfold NetRing.rxQueue
    rw [hslots, hhead, htail]
  obtain ⟨h1, h2, h3, h4, h5⟩ := hi
  unfold Machine.Hand at h1
  constructor
  · unfold Machine.Hand
    rw [hp, hd, hcopy, hpoll, hqueue]
    exact h1
  · rw [hhead, htail]
    exact h2
  · rw [hqueue]
    exact h3
  · rw [hcopy, hpoll, hslots, hhead, htail]
    exact h4
  · rw [hpoll]
    exact h5

/-! ## Transmit -/

/-- The frame of a writer is queued behind the others. -/
theorem txQueue_push (hfree : ahead ring.hdr.tx_tail ring.hdr.tx_head < NETSRV_SLOTS)
    (hframe : (ring.tx (slotOf ring.hdr.tx_head)).frame = frame) :
    (({ ring with hdr := { ring.hdr with tx_head := ring.hdr.tx_head + 1 } } : NetRing)).txQueue =
      ring.txQueue ++ [frame] := by
  have hroom : ahead ring.hdr.tx_tail ring.hdr.tx_head + 1 < 2 ^ 32 := by
    unfold NETSRV_SLOTS at hfree
    omega
  have hpush := slotQueue_push one_lt slots_dvd hfree hroom ring.tx
    (ring.tx (slotOf ring.hdr.tx_head))
  rw [slotOf_eq, Function.update_eq_self] at hpush
  unfold NetRing.txQueue
  dsimp only
  rw [← hframe, slotOf_eq]
  exact (congrArg (List.map Slot.frame) hpush).trans (List.map_append ..)

/-- The server takes the first frame. -/
theorem txQueue_pop (hne : ring.hdr.tx_tail ≠ ring.hdr.tx_head) :
    ring.txQueue = (ring.tx (slotOf ring.hdr.tx_tail)).frame ::
      ({ ring with hdr := { ring.hdr with tx_tail := ring.hdr.tx_tail + 1 } } : NetRing).txQueue := by
  have hpop := slotQueue_pop one_lt slots_dvd hne ring.tx
  unfold NetRing.txQueue
  dsimp only
  rw [slotOf_eq, hpop, List.map_cons]
  rfl

/-- A slot that is filled behind the queue does not change it. -/
theorem txQueue_fill (hfree : ahead ring.hdr.tx_tail ring.hdr.tx_head < NETSRV_SLOTS) (slot : Slot) :
    ({ ring with tx := Function.update ring.tx (slotOf ring.hdr.tx_head) slot } : NetRing).txQueue =
      ring.txQueue := by
  unfold NetRing.txQueue
  dsimp only
  rw [slotOf_eq, slotQueue_fill slots_dvd hfree]

theorem TxInv.fill (hi : TxInv s ring) (hnone : ∀ t', ¬(s.writers t').Fills)
    {h : Option RingRef} (hfree : ahead ring.hdr.tx_tail ring.hdr.tx_head < NETSRV_SLOTS)
    (hframe : frame.length ≤ NETSRV_MAX_FRAME) (b : ℕ → UInt8) {s' : Machine}
    (hq : s'.queued = s.queued) (ht : s'.taken = s.taken) (hw : s'.writers =
      Function.update s.writers t (.filled h ring.hdr.tx_head frame)) :
    TxInv s' { ring with
      tx := Function.update ring.tx (slotOf ring.hdr.tx_head)
        (.mk (BitVec.ofNat 32 frame.length) (memcpy b 0 frame)) } := by
  constructor
  · rw [hq, ht, txQueue_fill hfree]
    exact hi.queued
  · exact hi.room
  · intro t' h' head' frame' hf
    rw [hw] at hf
    by_cases he : t' = t
    · rw [he, Function.update_self] at hf
      cases hf
      refine ⟨rfl, hfree, ?_⟩
      dsimp only
      rw [Function.update_self, frame_filled b hframe]
    · rw [Function.update_of_ne he] at hf
      have hfills := hnone t'
      rw [hf] at hfills
      exact absurd trivial hfills

theorem TxInv.publish (hi : TxInv s ring) {h : Option RingRef} {head : BitVec 32}
    (hw : s.writers t = .filled h head frame)
    (hone : ∀ t', (s.writers t').Fills → t' = t) {s' : Machine}
    (hq : s'.queued = s.queued ++ [frame]) (ht : s'.taken = s.taken)
    (hw' : s'.writers = Function.update s.writers t .leaving) :
    TxInv s' { ring with hdr := { ring.hdr with tx_head := head + 1 } } := by
  obtain ⟨rfl, hfree, hframe⟩ := hi.filled t h head frame hw
  constructor
  · rw [hq, ht, txQueue_push hfree hframe, hi.queued, List.append_assoc]
  · have hroom : ahead ring.hdr.tx_tail ring.hdr.tx_head + 1 < 2 ^ 32 := by
      unfold NETSRV_SLOTS at hfree
      omega
    exact (ahead_succ one_lt hroom).trans_le hfree
  · intro t' h' head' frame' hf
    rw [hw'] at hf
    by_cases he : t' = t
    · rw [he, Function.update_self] at hf
      cases hf
    · rw [Function.update_of_ne he] at hf
      refine absurd (hone t' ?_) he
      rw [hf]
      trivial

theorem TxInv.take (hi : TxInv s ring) (hne : ring.hdr.tx_tail ≠ ring.hdr.tx_head) {s' : Machine}
    (hq : s'.queued = s.queued)
    (ht : s'.taken = s.taken ++ [(ring.tx (slotOf ring.hdr.tx_tail)).frame])
    (hw : s'.writers = s.writers) :
    TxInv s' { ring with hdr := { ring.hdr with tx_tail := ring.hdr.tx_tail + 1 } } := by
  have hpred := ahead_pred one_lt hne
  constructor
  · rw [hq, ht, hi.queued, txQueue_pop hne, List.append_assoc]
    rfl
  · have hroom := hi.room
    rw [hpred] at hroom
    exact Nat.le_of_succ_le hroom
  · intro t' h' head' frame' hf
    rw [hw] at hf
    obtain ⟨rfl, hfree, hframe⟩ := hi.filled t' h' head' frame' hf
    rw [hpred] at hfree
    exact ⟨rfl, Nat.lt_of_succ_lt hfree, hframe⟩

/-! ## Receive -/

theorem rxQueue_pop (hne : ring.hdr.rx_tail ≠ ring.hdr.rx_head) :
    ring.rxQueue = (ring.rx (slotOf ring.hdr.rx_tail)).frame ::
      ({ ring with hdr := { ring.hdr with rx_tail := ring.hdr.rx_tail + 1 } } : NetRing).rxQueue := by
  have hpop := slotQueue_pop one_lt slots_dvd hne ring.rx
  unfold NetRing.rxQueue
  dsimp only
  rw [slotOf_eq, hpop, List.map_cons]
  rfl

theorem rxQueue_push (hfree : ahead ring.hdr.rx_tail ring.hdr.rx_head < NETSRV_SLOTS) :
    ({ ring with hdr := { ring.hdr with rx_head := ring.hdr.rx_head + 1 } } : NetRing).rxQueue =
      ring.rxQueue ++ [(ring.rx (slotOf ring.hdr.rx_head)).frame] := by
  have hroom : ahead ring.hdr.rx_tail ring.hdr.rx_head + 1 < 2 ^ 32 := by
    unfold NETSRV_SLOTS at hfree
    omega
  have hpush := slotQueue_push one_lt slots_dvd hfree hroom ring.rx
    (ring.rx (ring.hdr.rx_head.toNat % NETSRV_SLOTS))
  rw [Function.update_eq_self] at hpush
  unfold NetRing.rxQueue
  dsimp only
  rw [slotOf_eq]
  exact (congrArg (List.map Slot.frame) hpush).trans (List.map_append ..)

theorem rxQueue_fill (hfree : ahead ring.hdr.rx_tail ring.hdr.rx_head < NETSRV_SLOTS) (slot : Slot) :
    ({ ring with rx := Function.update ring.rx (slotOf ring.hdr.rx_head) slot } : NetRing).rxQueue =
      ring.rxQueue := by
  unfold NetRing.rxQueue
  dsimp only
  rw [slotOf_eq, slotQueue_fill slots_dvd hfree]

/-- What the only poll that is under way has in its hand. -/
def Poller.frames (p : Poller) (rxcopy : ℕ → UInt8) : List Frame :=
  match p.hand with
  | some len => [memread rxcopy 0 len]
  | none => []

/-- All other polls are idle. -/
def Alone (s : Machine) (t : ℕ) : Prop := ∀ t', t' ≠ t → s.pollers t' = .idle

theorem Alone.hand (ha : Alone s t) {held : List Frame} :
    s.Hand held ↔ held = (s.pollers t).frames s.rxcopy := by
  unfold Machine.Hand Poller.frames
  have hidle : ∀ t', t' ≠ t → (s.pollers t').hand = none := fun t' hne => by
    rw [ha t' hne]
    rfl
  cases hp : (s.pollers t).hand with
  | none =>
    have hnone : ∀ t', (s.pollers t').hand = none := by
      intro t'
      by_cases he : t' = t
      · rw [he, hp]
      · exact hidle t' he
    constructor
    · exact fun h => h.2 hnone
    · intro h
      refine ⟨fun t' len hlen => ?_, fun _ => h⟩
      rw [hnone t'] at hlen
      cases hlen
  | some len =>
    constructor
    · exact fun h => h.1 t len hp
    · intro h
      refine ⟨fun t' len' hlen => ?_, fun hnone => ?_⟩
      · by_cases he : t' = t
        · rw [he, hp] at hlen
          rw [← Option.some.inj hlen]
          exact h
        · rw [hidle t' he] at hlen
          cases hlen
      · rw [hnone t] at hp
        cases hp

theorem rxInv_of_alone (ha : Alone s t)
    (hpub : s.published = s.delivered ++ (s.pollers t).frames s.rxcopy ++ ring.rxQueue)
    (hroom : ahead ring.hdr.rx_tail ring.hdr.rx_head ≤ NETSRV_SLOTS)
    (hvalid : ∀ f ∈ ring.rxQueue, 14 ≤ f.length ∧ f.length ≤ NETSRV_MAX_FRAME)
    (hcopied : ∀ h budget tail len, s.pollers t = .copied h budget tail len →
      tail = ring.hdr.rx_tail ∧ ring.hdr.rx_tail ≠ ring.hdr.rx_head ∧
        memread s.rxcopy 0 len = (ring.rx (slotOf tail)).frame)
    (hgood : ∀ h budget tail, s.pollers t ≠ .bad h budget tail) : RxInv s ring := by
  refine ⟨⟨_, ha.hand.mpr rfl, hpub⟩, hroom, hvalid, ?_, ?_⟩
  · intro t' h budget tail len hp
    by_cases he : t' = t
    · rw [he] at hp
      exact hcopied h budget tail len hp
    · rw [ha t' he] at hp
      cases hp
  · intro t' h budget tail hp
    by_cases he : t' = t
    · rw [he] at hp
      exact hgood h budget tail hp
    · rw [ha t' he] at hp
      cases hp

theorem RxInv.published_alone (hi : RxInv s ring) (ha : Alone s t) :
    s.published = s.delivered ++ (s.pollers t).frames s.rxcopy ++ ring.rxQueue := by
  obtain ⟨held, hhand, hpub⟩ := hi.published
  rw [ha.hand.mp hhand] at hpub
  exact hpub

/-- A poll that neither has a frame nor gets one. -/
theorem RxInv.next (hi : RxInv s ring) (ha : Alone s t) {p q : Poller} (hp : s.pollers t = p)
    (hframes : ∀ rxcopy, p.frames rxcopy = [] ∧ q.frames rxcopy = [])
    (hq : (∀ h budget tail len, q ≠ .copied h budget tail len) ∧ ∀ h budget tail, q ≠ .bad h budget tail)
    {s' : Machine} (hpub : s'.published = s.published) (hdel : s'.delivered = s.delivered)
    (hpoll : s'.pollers = Function.update s.pollers t q) : RxInv s' ring := by
  have hself : s'.pollers t = q := by
    rw [hpoll, Function.update_self]
  have ha' : Alone s' t := by
    intro t' hne
    rw [hpoll, Function.update_of_ne hne]
    exact ha t' hne
  have hold := hi.published_alone ha
  rw [hp, (hframes _).1] at hold
  apply rxInv_of_alone ha'
  · rw [hpub, hdel, hself, (hframes _).2]
    exact hold
  · exact hi.room
  · exact hi.valid
  · intro h budget tail len hc
    exact absurd (hself.symm.trans hc) (hq.1 h budget tail len)
  · intro h budget tail hb
    exact hq.2 h budget tail (hself.symm.trans hb)

/-- The frame at `rx_tail` is copied. -/
theorem RxInv.copy (hi : RxInv s ring) (ha : Alone s t) {h : Option RingRef} {budget len : ℕ}
    (hp : s.pollers t = .body h budget) (hne : ring.hdr.rx_tail ≠ ring.hdr.rx_head)
    (hlen : (ring.rx (slotOf ring.hdr.rx_tail)).len.toNat = len) {s' : Machine}
    (hpub : s'.published = s.published) (hdel : s'.delivered = s.delivered)
    (hcopy : s'.rxcopy = memcpy s.rxcopy 0
      (memread (ring.rx (slotOf ring.hdr.rx_tail)).data 0 len))
    (hpoll : s'.pollers = Function.update s.pollers t (.copied h budget ring.hdr.rx_tail len)) :
    RxInv s' ring := by
  have hself : s'.pollers t = .copied h budget ring.hdr.rx_tail len := by
    rw [hpoll, Function.update_self]
  have ha' : Alone s' t := by
    intro t' hne
    rw [hpoll, Function.update_of_ne hne]
    exact ha t' hne
  have hold := hi.published_alone ha
  rw [hp] at hold
  apply rxInv_of_alone ha'
  · rw [hpub, hdel, hself]
    exact hold
  · exact hi.room
  · exact hi.valid
  · intro h' budget' tail' len' hc
    rw [hself] at hc
    cases hc
    refine ⟨rfl, hne, ?_⟩
    have hframe := memread_memcpy s.rxcopy (memread (ring.rx (slotOf ring.hdr.rx_tail)).data 0 len)
    rw [memread_length] at hframe
    rw [hcopy, hframe]
    unfold Slot.frame
    rw [hlen]
  · intro h' budget' tail' hb
    rw [hself] at hb
    cases hb

/-- A slot in the queue has a good length. -/
theorem RxInv.first (hi : RxInv s ring) (hne : ring.hdr.rx_tail ≠ ring.hdr.rx_head) :
    14 ≤ (ring.rx (slotOf ring.hdr.rx_tail)).len.toNat ∧
      (ring.rx (slotOf ring.hdr.rx_tail)).len.toNat ≤ NETSRV_MAX_FRAME := by
  have hmem : (ring.rx (slotOf ring.hdr.rx_tail)).frame ∈ ring.rxQueue := by
    rw [rxQueue_pop hne]
    exact List.mem_cons_self
  have hvalid := hi.valid _ hmem
  rwa [Slot.frame_length] at hvalid

/-- The slot is given back, and the frame is in the hand of the poll. -/
theorem RxInv.give (hi : RxInv s ring) (ha : Alone s t) {h : Option RingRef} {budget len : ℕ}
    {tail : BitVec 32} (hp : s.pollers t = .copied h budget tail len) {s' : Machine}
    (hpub : s'.published = s.published) (hdel : s'.delivered = s.delivered)
    (hcopy : s'.rxcopy = s.rxcopy)
    (hpoll : s'.pollers = Function.update s.pollers t (.handle h budget len)) :
    RxInv s' { ring with hdr := { ring.hdr with rx_tail := tail + 1 } } := by
  obtain ⟨rfl, hne, hframe⟩ := hi.copied t h budget tail len hp
  have hself : s'.pollers t = .handle h budget len := by
    rw [hpoll, Function.update_self]
  have ha' : Alone s' t := by
    intro t' hne
    rw [hpoll, Function.update_of_ne hne]
    exact ha t' hne
  have hold := hi.published_alone ha
  have hpop := rxQueue_pop hne
  rw [hp, hpop] at hold
  apply rxInv_of_alone ha'
  · rw [hpub, hdel, hself, hold, hcopy]
    unfold Poller.frames Poller.hand
    dsimp only
    rw [hframe, List.append_nil, List.append_assoc]
    rfl
  · have hroom := hi.room
    rw [ahead_pred one_lt hne] at hroom
    exact Nat.le_of_succ_le hroom
  · intro f hf
    apply hi.valid
    rw [hpop]
    exact List.mem_cons_of_mem _ hf
  · intro h' budget' tail' len' hc
    rw [hself] at hc
    cases hc
  · intro h' budget' tail' hb
    rw [hself] at hb
    cases hb

/-- The frame is handed on. -/
theorem RxInv.deliver (hi : RxInv s ring) (ha : Alone s t) {h : Option RingRef} {budget len : ℕ}
    (hp : s.pollers t = .handle h budget len) {s' : Machine} (hpub : s'.published = s.published)
    (hdel : s'.delivered = s.delivered ++ [memread s.rxcopy 0 len])
    (hpoll : s'.pollers = Function.update s.pollers t (.loop h budget)) : RxInv s' ring := by
  have hself : s'.pollers t = .loop h budget := by
    rw [hpoll, Function.update_self]
  have ha' : Alone s' t := by
    intro t' hne
    rw [hpoll, Function.update_of_ne hne]
    exact ha t' hne
  have hold := hi.published_alone ha
  rw [hp] at hold
  apply rxInv_of_alone ha'
  · rw [hpub, hdel, hself, hold]
    unfold Poller.frames Poller.hand
    simp
  · exact hi.room
  · exact hi.valid
  · intro h' budget' tail' len' hc
    rw [hself] at hc
    cases hc
  · intro h' budget' tail' hb
    rw [hself] at hb
    cases hb

/-- The server fills the slot behind its queue. -/
theorem RxInv.fill (hi : RxInv s ring)
    (hfree : ahead ring.hdr.rx_tail ring.hdr.rx_head < NETSRV_SLOTS) (slot : Slot) :
    RxInv s { ring with rx := Function.update ring.rx (slotOf ring.hdr.rx_head) slot } := by
  have hqueue := rxQueue_fill hfree slot
  refine ⟨?_, hi.room, ?_, ?_, hi.good⟩
  · rw [hqueue]
    exact hi.published
  · rw [hqueue]
    exact hi.valid
  · intro t h budget tail len hp
    obtain ⟨rfl, hne, hframe⟩ := hi.copied t h budget tail len hp
    refine ⟨rfl, hne, ?_⟩
    -- the first frame of the queue is the same
    have hnew : ({ ring with
        rx := Function.update ring.rx (slotOf ring.hdr.rx_head) slot } : NetRing).rxQueue = _ :=
      rxQueue_pop hne
    rw [rxQueue_pop hne] at hqueue
    exact hframe.trans (List.cons.inj (hnew.symm.trans hqueue)).1.symm

/-- The server publishes the slot behind its queue. -/
theorem RxInv.publish (hi : RxInv s ring)
    (hfree : ahead ring.hdr.rx_tail ring.hdr.rx_head < NETSRV_SLOTS)
    (hlen : 14 ≤ (ring.rx (slotOf ring.hdr.rx_head)).len.toNat ∧
      (ring.rx (slotOf ring.hdr.rx_head)).len.toNat ≤ NETSRV_MAX_FRAME) {s' : Machine}
    (hpub : s'.published = s.published ++ [(ring.rx (slotOf ring.hdr.rx_head)).frame])
    (hdel : s'.delivered = s.delivered) (hcopy : s'.rxcopy = s.rxcopy)
    (hpoll : s'.pollers = s.pollers) :
    RxInv s' { ring with hdr := { ring.hdr with rx_head := ring.hdr.rx_head + 1 } } := by
  have hqueue := rxQueue_push hfree
  have hroom : ahead ring.hdr.rx_tail ring.hdr.rx_head + 1 < 2 ^ 32 := by
    unfold NETSRV_SLOTS at hfree
    omega
  have hsucc := ahead_succ one_lt hroom
  constructor
  · obtain ⟨held, hhand, h⟩ := hi.published
    refine ⟨held, ?_, ?_⟩
    · unfold Machine.Hand
      rw [hpoll, hcopy]
      exact hhand
    · rw [hpub, hdel, h, hqueue, List.append_assoc _ ring.rxQueue]
  · exact hsucc.trans_le hfree
  · intro f hf
    rw [hqueue] at hf
    rcases List.mem_append.mp hf with hf | hf
    · exact hi.valid f hf
    · rw [List.mem_singleton.mp hf, Slot.frame_length]
      exact hlen
  · intro t h budget tail len hp
    rw [hpoll] at hp
    obtain ⟨htail, -, hframe⟩ := hi.copied t h budget tail len hp
    refine ⟨htail, ?_, ?_⟩
    · intro he
      dsimp only at he
      have hself : ahead ring.hdr.rx_tail (ring.hdr.rx_head + 1#32) = 0 := by
        rw [he]
        exact ahead_self _
      exact absurd (hsucc.symm.trans hself) (Nat.succ_ne_zero _)
    · rw [hcopy]
      exact hframe
  · intro t h budget tail hb
    rw [hpoll] at hb
    exact hi.good t h budget tail hb

/-! ## Every step -/

/-- The rings in use are in order. -/
def FifoInv (s : Machine) : Prop :=
  ∀ r, s.InUse r → TxInv s (s.rings r.ring_phys) ∧ RxInv s (s.rings r.ring_phys)

theorem RingInv.inUse (hr : RingInv s) (hu : s.InUse r) (hne : s.hdr ≠ none) : s.hdr = some r := by
  rcases hu with hu | ⟨t, proc, hu⟩
  · exact hu
  · exact absurd (hr.attaching t (by rw [hu]; simp)).1 hne

theorem FifoInv.congr (hf : FifoInv s) (hh : s'.hdr = s.hdr) (hat : s'.attachers = s.attachers)
    (hrings : s'.rings = s.rings) (hq : s'.queued = s.queued) (ht : s'.taken = s.taken)
    (hw : ∀ t h head frame, s'.writers t = .filled h head frame → s.writers t = .filled h head frame)
    (hpub : s'.published = s.published) (hdel : s'.delivered = s.delivered)
    (hcopy : s'.rxcopy = s.rxcopy) (hpoll : s'.pollers = s.pollers) : FifoInv s' := by
  intro r hu
  unfold Machine.InUse at hu
  rw [hh, hat] at hu
  obtain ⟨htx, hrx⟩ := hf r hu
  rw [hrings]
  exact ⟨htx.congr hq ht hw rfl rfl rfl, hrx.congr hpub hdel hcopy hpoll rfl rfl rfl⟩

/-- A writer that does not have a frame in its slot. -/
theorem filled_update {w : Writer} (hw : ¬w.Fills) :
    ∀ t' h head frame, Function.update s.writers t w t' = .filled h head frame →
      s.writers t' = .filled h head frame := by
  intro t' h head frame hf
  by_cases he : t' = t
  · rw [he, Function.update_self] at hf
    rw [hf] at hw
    exact absurd trivial hw
  · rwa [Function.update_of_ne he] at hf

theorem FifoInv.setWriter (hf : FifoInv s) {w : Writer} (hw : ¬w.Fills) :
    FifoInv (s.setWriter t w) :=
  hf.congr rfl rfl rfl rfl rfl (filled_update hw) rfl rfl rfl rfl

theorem FifoInv.npWriteFill (hf : FifoInv s) (hi : Inv s) {buffer : Frame}
    (hw : s.writers t = .inside buffer) (hnone : ∀ t', ¬(s.writers t').Fills) :
    FifoInv (Netproxy.npWriteFill s t buffer) := by
  have hlen : buffer.length ≤ NETSRV_MAX_FRAME := by
    apply hi.writers.frame t
    rw [hw]
    rfl
  have htake : buffer.take NETSRV_MAX_FRAME = buffer := List.take_of_length_le hlen
  unfold Netproxy.npWriteFill
  split_ifs with hgo
  · exact hf.setWriter not_false
  have hne : s.hdr ≠ none := hi.rings.hdr_ne (by simpa using hgo)
  dsimp only
  rw [htake]
  intro r hu
  have hhdr : s.hdr = some r := by
    apply hi.rings.inUse _ hne
    split_ifs at hu <;> exact hu
  obtain ⟨htx, hrx⟩ := hf r (.inl hhdr)
  rw [hhdr]
  unfold Machine.ring
  dsimp only
  split_ifs with hfull
  · unfold Machine.setWriter Machine.setRing
    dsimp only
    rw [Function.update_self]
    exact ⟨htx.congr rfl rfl (filled_update not_false) rfl rfl rfl,
      hrx.congr rfl rfl rfl rfl rfl rfl rfl⟩
  · unfold Machine.setWriter Machine.setRing
    dsimp only
    rw [Function.update_self]
    exact ⟨htx.fill hnone (Nat.lt_of_not_le hfull) hlen _ rfl rfl rfl,
      hrx.congr rfl rfl rfl rfl rfl rfl rfl⟩

theorem FifoInv.npWritePublish (hf : FifoInv s) (hi : Inv s) {h : Option RingRef}
    {head : BitVec 32} (hw : s.writers t = .filled h head frame) :
    FifoInv (Netproxy.npWritePublish s t h head frame) := by
  obtain ⟨rfl, hne⟩ := hi.writers.ring t h (by rw [hw]; rfl)
  have hone : ∀ t', (s.writers t').Fills → t' = t := by
    intro t' hfills
    apply hi.writers.fills t' t hfills
    rw [hw]
    trivial
  unfold Netproxy.npWritePublish
  intro r hu
  have hhdr : s.hdr = some r := hi.rings.inUse hu hne
  obtain ⟨htx, hrx⟩ := hf r (.inl hhdr)
  rw [hhdr]
  unfold Machine.ring Machine.setWriter Machine.setRing
  dsimp only
  rw [Function.update_self]
  exact ⟨htx.publish hw hone rfl rfl rfl, hrx.congr rfl rfl rfl rfl rfl rfl rfl⟩

theorem FifoInv.write (hf : FifoInv s) (hi : Inv s) {buffer : Frame}
    (hk : Kind s (.write t buffer)) : FifoInv (npWrite s t buffer) := by
  unfold npWrite
  unfold Kind at hk
  dsimp only at hk
  cases hw : s.writers t with
  | idle =>
    dsimp only
    unfold npWriteEnter
    split_ifs
    · exact hf
    · exact hf.setWriter not_false
  | counting buffer' n =>
    exact hf.congr rfl rfl rfl rfl rfl (filled_update not_false) rfl rfl rfl rfl
  | inside buffer' =>
    rw [hw] at hk
    exact hf.npWriteFill hi hw hk
  | filled h head frame => exact hf.npWritePublish hi hw
  | leaving => exact hf.setWriter not_false
  | uncounting n =>
    exact hf.congr rfl rfl rfl rfl rfl (filled_update not_false) rfl rfl rfl rfl

/-- A step of a poll that moves no frame. -/
theorem FifoInv.next (hf : FifoInv s) (ha : Alone s t) {p q : Poller} (hp : s.pollers t = p)
    (hframes : ∀ rxcopy, p.frames rxcopy = [] ∧ q.frames rxcopy = [])
    (hq : (∀ h budget tail len, q ≠ .copied h budget tail len) ∧ ∀ h budget tail, q ≠ .bad h budget tail)
    (hh : s'.hdr = s.hdr) (hat : s'.attachers = s.attachers) (hrings : s'.rings = s.rings)
    (hqu : s'.queued = s.queued) (ht : s'.taken = s.taken) (hw : s'.writers = s.writers)
    (hpub : s'.published = s.published) (hdel : s'.delivered = s.delivered)
    (hpoll : s'.pollers = Function.update s.pollers t q) : FifoInv s' := by
  intro r hu
  unfold Machine.InUse at hu
  rw [hh, hat] at hu
  obtain ⟨htx, hrx⟩ := hf r hu
  rw [hrings]
  refine ⟨htx.congr hqu ht ?_ rfl rfl rfl, hrx.next ha hp hframes hq hpub hdel hpoll⟩
  intro t' h head frame hfill
  rwa [hw] at hfill

theorem FifoInv.npRxRead (hf : FifoInv s) (hi : Inv s) {h : Option RingRef} {budget : ℕ}
    (hp : s.pollers t = .body h budget) (ha : Alone s t) :
    FifoInv (Netproxy.npRxRead s t h budget) := by
  obtain rfl : h = s.hdr := hi.pollers.ring t h (by rw [hp]; rfl)
  have hne : s.hdr ≠ none := hi.pollers.inside t (by rw [hp]; trivial)
  obtain ⟨r₀, hhdr⟩ := Option.ne_none_iff_exists'.mp hne
  obtain ⟨htx₀, hrx₀⟩ := hf r₀ (.inl hhdr)
  unfold Netproxy.npRxRead
  dsimp only
  split_ifs with hempty hlen
  · exact hf.next ha hp (fun _ => ⟨rfl, rfl⟩) (by simp) rfl rfl rfl rfl rfl rfl rfl rfl rfl
  · intro r hu
    obtain rfl : r₀ = r := by
      have hr : s.hdr = some r := hi.rings.inUse hu hne
      exact Option.some.inj (hhdr.symm.trans hr)
    rw [hhdr] at hempty hp ⊢
    unfold Machine.ring at hempty ⊢
    dsimp only at hempty ⊢
    exact ⟨htx₀.congr rfl rfl (fun _ _ _ _ h => h) rfl rfl rfl,
      hrx₀.copy ha hp hempty rfl rfl rfl rfl rfl⟩
  · rw [hhdr] at hempty hlen
    exact absurd (hrx₀.first hempty) hlen

theorem FifoInv.npRxGive (hf : FifoInv s) (hi : Inv s) {h : Option RingRef} {budget len : ℕ}
    {tail : BitVec 32} (hp : s.pollers t = .copied h budget tail len) (ha : Alone s t) :
    FifoInv ({ npRxGive s h tail with rx_frames := s.rx_frames + 1 }.setPoller t
      (.handle h budget len)) := by
  obtain rfl : h = s.hdr := hi.pollers.ring t h (by rw [hp]; rfl)
  have hne : s.hdr ≠ none := hi.pollers.inside t (by rw [hp]; trivial)
  intro r hu
  have hhdr : s.hdr = some r := hi.rings.inUse hu hne
  obtain ⟨htx, hrx⟩ := hf r (.inl hhdr)
  rw [hhdr] at hp ⊢
  unfold Netproxy.npRxGive Machine.ring Machine.setPoller Machine.setRing
  dsimp only
  rw [Function.update_self]
  exact ⟨htx.congr rfl rfl (fun _ _ _ _ h => h) rfl rfl rfl, hrx.give ha hp rfl rfl rfl rfl⟩

theorem FifoInv.poll (hf : FifoInv s) (hi : Inv s) (hk : Kind s (.poll t)) :
    FifoInv (npRxpoll s t) := by
  have hothers := hi.pollers.others (t := t)
  unfold npRxpoll
  cases hp : s.pollers t with
  | idle =>
    dsimp only
    split_ifs with hgo
    · exact hf
    rw [not_or] at hgo
    have hnone := hi.pollers.none (hk hp) (Bool.eq_false_of_not_eq_true hgo.1)
    exact hf.next (fun t' _ => hnone t') hp (fun _ => ⟨rfl, rfl⟩) (by simp) rfl rfl rfl rfl rfl rfl rfl
      rfl rfl
  | checked =>
    rw [hp] at hothers
    exact hf.next (hothers (by simp)) hp (fun _ => ⟨rfl, rfl⟩) (by simp) rfl rfl rfl rfl rfl rfl rfl
      rfl rfl
  | loop h budget =>
    rw [hp] at hothers
    dsimp only
    split_ifs
    all_goals
      exact hf.next (hothers (by simp)) hp (fun _ => ⟨rfl, rfl⟩) (by simp) rfl rfl rfl rfl rfl rfl rfl
        rfl rfl
  | body h budget =>
    rw [hp] at hothers
    exact hf.npRxRead hi hp (hothers (by simp))
  | copied h budget tail len =>
    rw [hp] at hothers
    exact hf.npRxGive hi hp (hothers (by simp))
  | bad h budget tail =>
    obtain rfl : h = s.hdr := hi.pollers.ring t h (by rw [hp]; rfl)
    have hne : s.hdr ≠ none := hi.pollers.inside t (by rw [hp]; trivial)
    obtain ⟨r, hhdr⟩ := Option.ne_none_iff_exists'.mp hne
    exact absurd hp ((hf r (.inl hhdr)).2.good t _ _ _)
  | handle h budget len =>
    rw [hp] at hothers
    intro r hu
    obtain ⟨htx, hrx⟩ := hf r hu
    exact ⟨htx.congr rfl rfl (fun _ _ _ _ h => h) rfl rfl rfl,
      hrx.deliver (hothers (by simp)) hp rfl rfl rfl⟩
  | exiting =>
    rw [hp] at hothers
    exact hf.next (hothers (by simp)) hp (fun _ => ⟨rfl, rfl⟩) (by simp) rfl rfl rfl rfl rfl rfl rfl
      rfl rfl

/-- A ring with its counters at zero is in order, before any frame. -/
theorem FifoInv.attachBegin (hf : FifoInv s) (hi : Inv s) {proc : ℕ} {req : NetsrvAttach}
    (hk : Kind s (.attachBegin t proc req)) : FifoInv (Netproxy.attachBegin s t proc req) := by
  unfold Netproxy.attachBegin
  dsimp only
  split_ifs with hallowed hatt hlen howns hmagic
  · exact hf
  · exact hf
  · exact hf
  · exact hf
  · exact hf
  have hatt : s.attached = false := Bool.eq_false_of_not_eq_true hatt
  have hnone : s.hdr = none := hi.rings.hdr_none hatt hk.1
  intro r hu
  have hr : r.ring_phys = req.ring_phys := by
    rcases hu with hu | ⟨t', proc', hu⟩
    · exact absurd (hnone.symm.trans hu) (by simp)
    · dsimp only at hu
      by_cases he : t' = t
      · rw [he, Function.update_self] at hu
        cases hu
        rfl
      · rw [Function.update_of_ne he, hk.2 t'] at hu
        cases hu
  rw [hr]
  dsimp only
  rw [Function.update_self]
  refine ⟨⟨?_, ?_, ?_⟩, ⟨⟨[], ⟨?_, fun _ => rfl⟩, ?_⟩, ?_, ?_, ?_, ?_⟩⟩
  · unfold NetRing.txQueue
    simp
  · simp
  · intro t' h head frame hw
    exact absurd hnone (hi.writers.ring t' h (by dsimp only at hw; rw [hw]; rfl)).2
  · intro t' len hhand
    dsimp only at hhand
    have hinside := hi.pollers.inside t'
    cases hp : s.pollers t' with
    | handle =>
      rw [hp] at hinside
      exact absurd hnone (hinside trivial)
    | _ =>
      rw [hp] at hhand
      cases hhand
  · unfold NetRing.rxQueue
    simp
  · simp
  · intro f hfr
    unfold NetRing.rxQueue at hfr
    simp at hfr
  · intro t' h budget tail len hp
    have hinside := hi.pollers.inside t'
    dsimp only at hp
    rw [hp] at hinside
    exact absurd hnone (hinside trivial)
  · intro t' h budget tail hp
    have hinside := hi.pollers.inside t'
    dsimp only at hp
    rw [hp] at hinside
    exact absurd hnone (hinside trivial)

theorem FifoInv.attachEnd (hf : FifoInv s) : FifoInv (Netproxy.attachEnd s t) := by
  unfold Netproxy.attachEnd
  cases hat : s.attachers t with
  | none => exact hf
  | some p =>
    obtain ⟨r₀, proc⟩ := p
    intro r hu
    have hold : s.InUse r := by
      rcases hu with hu | ⟨t', proc', hu⟩
      · obtain rfl := Option.some.inj hu
        exact .inr ⟨t, proc, hat⟩
      · dsimp only at hu
        by_cases he : t' = t
        · rw [he, Function.update_self] at hu
          cases hu
        · rw [Function.update_of_ne he] at hu
          exact .inr ⟨t', proc', hu⟩
    obtain ⟨htx, hrx⟩ := hf r hold
    exact ⟨htx.congr rfl rfl (fun _ _ _ _ h => h) rfl rfl rfl, hrx.congr rfl rfl rfl rfl rfl rfl rfl⟩

theorem FifoInv.detachEnd (hf : FifoInv s) : FifoInv (npDetachEnd s) := by
  intro r hu
  obtain ⟨htx, hrx⟩ := hf r (.inr (hu.resolve_left (by unfold npDetachEnd; simp)))
  exact ⟨htx.congr rfl rfl (fun _ _ _ _ h => h) rfl rfl rfl, hrx.congr rfl rfl rfl rfl rfl rfl rfl⟩

/-- While a ring is attached no other is in use. -/
theorem fifoInv_own (hr : RingInv s) (hhdr : s.hdr = some r) (hh : s'.hdr = s.hdr)
    (hat : s'.attachers = s.attachers)
    (h : TxInv s' (s'.rings r.ring_phys) ∧ RxInv s' (s'.rings r.ring_phys)) : FifoInv s' := by
  intro r' hu
  unfold Machine.InUse at hu
  rw [hh, hat] at hu
  have hhdr' := hr.inUse hu (by rw [hhdr]; simp)
  obtain rfl : r = r' := Option.some.inj (hhdr.symm.trans hhdr')
  exact h

theorem FifoInv.serverFill (hf : FifoInv s) (hi : Inv s) (hhdr : s.hdr = some r) (frame : Frame) :
    FifoInv (Netproxy.serverFill s r frame) := by
  obtain ⟨htx, hrx⟩ := hf r (.inl hhdr)
  unfold Netproxy.serverFill
  dsimp only
  split_ifs with hgo
  · apply fifoInv_own hi.rings hhdr
    · rfl
    · rfl
    unfold Machine.setRing
    dsimp only
    rw [Function.update_self]
    refine ⟨htx.congr rfl rfl (fun _ _ _ _ h => h) rfl rfl rfl, ?_⟩
    exact (hrx.fill hgo.2.2 _).congr rfl rfl rfl rfl rfl rfl rfl
  · exact hf

theorem FifoInv.serverPublish (hf : FifoInv s) (hi : Inv s) (hhdr : s.hdr = some r) :
    FifoInv (Netproxy.serverPublish s r) := by
  obtain ⟨htx, hrx⟩ := hf r (.inl hhdr)
  unfold Netproxy.serverPublish
  dsimp only
  split_ifs with hgo
  · apply fifoInv_own hi.rings hhdr
    · rfl
    · rfl
    unfold Machine.setRing
    dsimp only
    rw [Function.update_self]
    exact ⟨htx.congr rfl rfl (fun _ _ _ _ h => h) rfl rfl rfl,
      hrx.publish hgo.2.2 ⟨hgo.1, hgo.2.1⟩ rfl rfl rfl rfl⟩
  · exact hf

theorem FifoInv.serverTake (hf : FifoInv s) (hi : Inv s) (hhdr : s.hdr = some r) :
    FifoInv (Netproxy.serverTake s r) := by
  obtain ⟨htx, hrx⟩ := hf r (.inl hhdr)
  unfold Netproxy.serverTake
  dsimp only
  split_ifs with hgo
  · exact hf
  · apply fifoInv_own hi.rings hhdr
    · rfl
    · rfl
    unfold Machine.setRing
    dsimp only
    rw [Function.update_self]
    exact ⟨htx.take hgo rfl rfl rfl, hrx.congr rfl rfl rfl rfl rfl rfl rfl⟩

theorem FifoInv.server (hf : FifoInv s) {f : RingRef → Machine}
    (h : ∀ r, s.hdr = some r → FifoInv (f r)) : FifoInv (s.server f) := by
  unfold Machine.server
  split
  · exact hf
  next r hhdr =>
    split_ifs
    · exact h r hhdr
    · exact hf

theorem FifoInv.store (hf : FifoInv s) {phys : ℕ} (hfo : ∀ r, s.InUse r → r.ring_phys ≠ phys)
    (ring : NetRing) : FifoInv { s with rings := Function.update s.rings phys ring } := by
  intro r hu
  obtain ⟨htx, hrx⟩ := hf r hu
  dsimp only
  rw [Function.update_of_ne (hfo r hu)]
  exact ⟨htx.congr rfl rfl (fun _ _ _ _ h => h) rfl rfl rfl, hrx.congr rfl rfl rfl rfl rfl rfl rfl⟩

theorem FifoInv.step (hf : FifoInv s) (hi : Inv s) (hk : Kind s a) (hfo : Follows s a) :
    FifoInv (Netproxy.step s a) := by
  cases a with
  | write t buffer => exact hf.write hi hk
  | poll t => exact hf.poll hi hk
  | attachBegin t proc req => exact hf.attachBegin hi hk
  | attachEnd t => exact hf.attachEnd
  | detachBegin proc =>
    unfold Netproxy.step npDetachBegin
    dsimp only
    split_ifs
    · exact hf
    · exact hf.congr rfl rfl rfl rfl rfl (fun _ _ _ _ h => h) rfl rfl rfl rfl
    · exact hf
  | detachEnd timeout =>
    unfold Netproxy.step
    dsimp only
    split_ifs
    · exact hf.detachEnd
    · exact hf
  | serverFill frame => exact hf.server fun r hhdr => hf.serverFill hi hhdr frame
  | serverPublish => exact hf.server fun r hhdr => hf.serverPublish hi hhdr
  | serverTake => exact hf.server fun r hhdr => hf.serverTake hi hhdr
  | store phys ring => exact hf.store hfo ring

theorem fifoInv_init (rings : ℕ → NetRing) : FifoInv { rings } := by
  intro r hu
  rcases hu with hu | ⟨t, proc, hu⟩ <;> cases hu

theorem FifoInv.inOrder (hf : FifoInv s) : InOrder s where
  tx r hhdr := (hf r (.inl hhdr)).1.queued
  rx r hhdr := (hf r (.inl hhdr)).2.published

/-- Every access is in the ring that is attached, polls end, and with a server that follows the
protocol all frames come through. -/
def NetRings (rings : ℕ → NetRing) (as : List Act) : Prop :=
  Safe (run step { rings } as) ∧ PollsEnd (run step { rings } as) ∧
    (Respects Follows step { rings } as → InOrder (run step { rings } as))

/-- In every run in which no two threads get into each other's way, and a detach waits for them. -/
theorem exec_netRings (rings : ℕ → NetRing) (as : List Act)
    (h : Respects Kind step { rings } as) : NetRings rings as := by
  have hi : Inv (run step { rings } as) :=
    h.invariant (fun _ _ hi hk => hi.step hk) (inv_init rings)
  refine ⟨hi.safe, hi.pollsEnd, ?_⟩
  intro hfo
  have hboth := (h.and hfo).invariant (I := fun s => Inv s ∧ FifoInv s)
    (fun s a hI hok => ⟨hI.1.step hok.1, hI.2.step hI.1 hok.1 hok.2⟩)
    ⟨inv_init rings, fifoInv_init rings⟩
  exact hboth.2.inOrder

/-- A server attaches the buffer at address 0. -/
def attached : List Act := [.attachBegin 0 9 ⟨0, NETSRV_RING_BYTES, true, true⟩, .attachEnd 0]

/-- A frame of 14 bytes. -/
def small : Frame := List.replicate 14 1

/-- A frame is sent, one is received, and a poll finds it. -/
def exchange : List Act := attached ++ [.write 1 small, .write 1 [], .write 1 [], .write 1 [],
  .serverTake, .serverFill small, .serverPublish, .poll 2, .poll 2, .poll 2, .poll 2, .poll 2, .poll 2]

theorem exec_netRings_exchange : NetRings (fun _ => {}) exchange := by
  apply exec_netRings
  have hfills : ∀ t', ¬(Function.update (Function.update (fun _ => Writer.idle) 1 (.counting small 0))
      1 (.inside small) t').Fills := by
    intro t' h
    by_cases he : t' = 1
    · rw [he, Function.update_self] at h
      exact h
    · rw [Function.update_of_ne he, Function.update_of_ne he] at h
      exact h
  refine ⟨⟨rfl, fun _ => rfl⟩, fun _ => ⟨fun _ => rfl, fun _ => trivial⟩,
    fun _ => ⟨by decide, fun _ h => h⟩, trivial, hfills, trivial, trivial, trivial, trivial, ?_⟩
  refine ⟨fun _ t' h => ?_, fun h => ?_, fun h => ?_, fun h => ?_, fun h => ?_, fun h => ?_, trivial⟩
  all_goals cases h

/-- The ring goes away while a poll is between its test and its look at the ring. -/
def lateDetach : List Act :=
  attached ++ [.poll 0, .poll 0, .poll 0, .detachBegin 9, .detachEnd false, .poll 0]

theorem not_exec_netRings : ¬NetRings (fun _ => {}) lateDetach := by
  intro h
  have hown := (h.1 _ List.mem_cons_self).1
  cases hown

end Xeneva.Netproxy
