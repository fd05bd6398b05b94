import Xeneva.Sound.SndproxyRing

/-!
# What servers consume is what was accepted
-/

namespace Xeneva.Sndproxy
open Base

variable {s : Machine} {r : RingRef} {t : ℕ}

/-- The text of a write stands behind the bytes in the ring. -/
structure Copied (ring : Ring) (buf : List UInt8) (head : UInt32) (len : ℕ) : Prop where
  head_eq : head = ring.hdr.head
  len_eq : len = buf.length
  room : ring.pending.length + buf.length ≤ ring.hdr.size.toNat
  text : window ring.data ring.hdr.size.toNat (ring.hdr.head.toNat % ring.hdr.size.toNat)
    buf.length = buf

def Writer.IsCopied (w : Writer) : Prop := ∃ r buf head len, w = .copied r buf head len

/-- With a ring in use the carried audio is in it, and one writer at most has copied a text that
`head` does not cover yet. -/
structure Ordered (s : Machine) : Prop where
  order : InOrder s
  good : ∀ r, s.InUse r → sizeOk (s.rings r.ring_phys).hdr.size = true ∧
    (s.rings r.ring_phys).pending.length ≤ (s.rings r.ring_phys).hdr.size.toNat
  carry : ∀ r, s.InUse r → s.px.carry = none
  copied : ∀ t r buf head len, s.writers t = .copied r buf head len →
    Copied (s.rings r.ring_phys) buf head len
  one : ∀ t t', (s.writers t).IsCopied → (s.writers t').IsCopied → t = t'

/-- What the order is about, beside the contents of the rings. -/
def Machine.queues (s : Machine) :=
  (s.px.ring, s.px.carry, s.attachers, s.rings, s.accepted, s.consumed, s.refused)

/-- Threads move, but none to between its copy and its `head`. -/
theorem Ordered.frame (ho : Ordered s) {s' : Machine} (h : s'.queues = s.queues)
    (hw : ∀ t, (s'.writers t).IsCopied → s'.writers t = s.writers t) : Ordered s' := by
  unfold Machine.queues at h
  simp only [Prod.mk.injEq] at h
  obtain ⟨hr, hc, hat, hrings, hacc, hcon, href⟩ := h
  obtain ⟨⟨hrefused, hq⟩, hg, hca, hcp, hone⟩ := ho
  unfold Machine.InUse at hq hg hca
  rw [← hr, ← hat] at hq hg hca
  rw [← hc] at hq hca
  rw [← hrings] at hq hg hcp
  rw [← hacc, ← hcon] at hq
  refine ⟨⟨href.trans hrefused, hq⟩, hg, hca, fun t r buf head len h => ?_, fun t t' h h' => ?_⟩
  · have hcopied : (s'.writers t).IsCopied := ⟨r, buf, head, len, h⟩
    rw [hw t hcopied] at h
    exact hcp t r buf head len h
  · have h1 := h
    have h2 := h'
    rw [hw t h] at h1
    rw [hw t' h'] at h2
    exact hone t t' h1 h2

theorem Ordered.setWriter (ho : Ordered s) (t : ℕ) {w : Writer} (hw : ¬ w.IsCopied) :
    Ordered (s.setWriter t w) := by
  refine ho.frame rfl fun t' h => ?_
  unfold Machine.setWriter at h ⊢
  dsimp only at h ⊢
  by_cases he : t' = t
  · rw [he, Function.update_self] at h
    exact absurd h hw
  · rw [Function.update_of_ne he]

/-- The counters and the bytes of two rings are the same. -/
def Ring.Same (a b : Ring) : Prop :=
  a.hdr.size = b.hdr.size ∧ a.hdr.head = b.hdr.head ∧ a.hdr.tail = b.hdr.tail ∧ a.data = b.data

theorem Ring.Same.pending {a b : Ring} (h : a.Same b) : a.pending = b.pending := by
  obtain ⟨h1, h2, h3, h4⟩ := h
  unfold Ring.pending
  rw [h1, h2, h3, h4]

theorem Ordered.sameRings (ho : Ordered s) (hi : Inv s) (rings : ℕ → Ring)
    (h : ∀ r, s.InUse r → (rings r.ring_phys).Same (s.rings r.ring_phys)) :
    Ordered { s with rings } := by
  obtain ⟨q, hacc, hq, hnone⟩ := ho.order.queue
  refine ⟨⟨ho.order.refused, q, hacc, fun r hr => ?_, hnone⟩, fun r hr => ?_, ho.carry,
    fun t r buf head len hw => ?_, ho.one⟩
  · exact (hq r hr).trans (h r hr).pending.symm
  · have hs := h r hr
    dsimp only
    rw [hs.pending, hs.1]
    exact ho.good r hr
  · have hs := h r (.inl (hi.holds t r (by rw [hw]; rfl)))
    obtain ⟨h1, h2, h3, h4⟩ := ho.copied t r buf head len hw
    refine ⟨h1.trans hs.2.1.symm, h2, ?_, ?_⟩
    · dsimp only
      rw [hs.pending, hs.1]
      exact h3
    · dsimp only
      rw [hs.1, hs.2.1, hs.2.2.2]
      exact h4

theorem Inv.inUse_eq (hi : Inv s) (hr : s.px.ring = some r) {r' : RingRef} (h : s.InUse r') :
    r' = r := by
  rcases h with h | ⟨t, proc, h⟩
  · exact Option.some.inj (h.symm.trans hr)
  · have := (hi.attaching t (by rw [h]; exact Option.some_ne_none _)).1
    rw [hr] at this
    cases this

/-! ## One lemma an operation -/

theorem not_isCopied_idle : ¬ Writer.idle.IsCopied := fun ⟨_, _, _, _, h⟩ => by cases h

theorem not_isCopied_inside (r : RingRef) (buf : List UInt8) :
    ¬ (Writer.inside r buf).IsCopied := fun ⟨_, _, _, _, h⟩ => by cases h

theorem not_isCopied_leaving : ¬ Writer.leaving.IsCopied := fun ⟨_, _, _, _, h⟩ => by cases h

theorem Ordered.writeEnter (ho : Ordered s) (t : ℕ) (buf : List UInt8) :
    Ordered (pxWriteEnter s t buf) := by
  unfold pxWriteEnter
  split_ifs
  · exact ho
  · exact ho
  · split
    · exact ho
    · exact (ho.setWriter t (not_isCopied_inside _ _)).frame rfl fun _ _ => rfl

theorem Ordered.writeCopy (ho : Ordered s) (hi : Inv s) {buf : List UInt8}
    (ht : s.writers t = .inside r buf)
    (hlen : buf.length ≤ (s.rings r.ring_phys).hdr.size.toNat)
    (hnone : ∀ t', ¬ (s.writers t').IsCopied) : Ordered (pxWriteCopy s t r buf) := by
  have hr : s.px.ring = some r := hi.holds t r (by rw [ht]; rfl)
  obtain ⟨hs, hle⟩ := ho.good r (.inl hr)
  unfold pxWriteCopy
  dsimp only
  rw [if_pos hs, Nat.min_eq_left hlen]
  split_ifs with hfull
  · have hdrop := ho.sameRings hi (Function.update s.rings r.ring_phys { s.rings r.ring_phys with
      hdr := { (s.rings r.ring_phys).hdr with
        dropped := (s.rings r.ring_phys).hdr.dropped + UInt32.ofNat buf.length } })
      fun r' hr' => by
        rw [hi.inUse_eq hr hr', Function.update_self]
        exact ⟨rfl, rfl, rfl, rfl⟩
    exact (hdrop.setWriter t not_isCopied_leaving).frame rfl fun _ _ => rfl
  · have hroom : (s.rings r.ring_phys).pending.length + buf.length ≤
        (s.rings r.ring_phys).hdr.size.toNat := by
      rw [UInt32.toNat_sub_of_le _ _ (UInt32.le_iff_toNat_le.mpr (by
        rw [← pending_length]; exact hle)), ← pending_length] at hfull
      omega
    obtain ⟨hp, htext⟩ := pending_copy hs hroom _ (copyIn_eq_ringWrite ..)
    obtain ⟨q, hacc, hq, -⟩ := ho.order.queue
    have hold := hq r (.inl hr)
    have hcopied : ∀ t' r' buf' head' len', Function.update s.writers t
        (.copied r buf (s.rings r.ring_phys).hdr.head buf.length) t' = .copied r' buf' head' len' →
        t' = t ∧ Writer.copied r' buf' head' len' =
          .copied r buf (s.rings r.ring_phys).hdr.head buf.length := by
      intro t' r' buf' head' len' h
      by_cases he : t' = t
      · rw [he, Function.update_self] at h
        exact ⟨he, h.symm⟩
      · rw [Function.update_of_ne he] at h
        exact absurd ⟨_, _, _, _, h⟩ (hnone t')
    refine ⟨⟨ho.order.refused, q, hacc, fun r' hr' => ?_, fun h => absurd (.inl hr) (h r)⟩,
      fun r' hr' => ?_, ho.carry, fun t' r' buf' head' len' h => ?_, fun t' t'' h h' => ?_⟩
    · have he := hi.inUse_eq hr hr'
      unfold Machine.setWriter Machine.setRing
      dsimp only
      rw [he, Function.update_self, hp]
      exact hold
    · have he := hi.inUse_eq hr hr'
      unfold Machine.setWriter Machine.setRing
      dsimp only
      rw [he, Function.update_self, hp]
      exact ⟨hs, hle⟩
    · obtain ⟨-, hw⟩ := hcopied t' r' buf' head' len' h
      cases hw
      unfold Machine.setWriter Machine.setRing
      dsimp only
      rw [Function.update_self]
      exact ⟨rfl, rfl, by rw [hp]; exact hroom, htext⟩
    · obtain ⟨_, _, _, _, h⟩ := h
      obtain ⟨_, _, _, _, h'⟩ := h'
      rw [(hcopied _ _ _ _ _ h).1, (hcopied _ _ _ _ _ h').1]

theorem Ordered.writePublish (ho : Ordered s) (hi : Inv s) {buf : List UInt8} {head : UInt32}
    {len : ℕ} (ht : s.writers t = .copied r buf head len) :
    Ordered (pxWritePublish s t r buf head len) := by
  have hr : s.px.ring = some r := hi.holds t r (by rw [ht]; rfl)
  obtain ⟨hs, hle⟩ := ho.good r (.inl hr)
  obtain ⟨rfl, rfl, hroom, htext⟩ := ho.copied t r buf head len ht
  obtain ⟨q, hacc, hq, -⟩ := ho.order.queue
  have hp := pending_publish hs hroom htext _ rfl
  have hcopied : ∀ t', ¬ (Function.update s.writers t .leaving t').IsCopied := by
    intro t' h
    by_cases he : t' = t
    · rw [he, Function.update_self] at h
      exact not_isCopied_leaving h
    · rw [Function.update_of_ne he] at h
      exact he (ho.one t' t h (by rw [ht]; exact ⟨_, _, _, _, rfl⟩))
  refine ⟨⟨ho.order.refused, q ++ buf, ?_, fun r' hr' => ?_, fun h => absurd (.inl hr) (h r)⟩,
    fun r' hr' => ?_, ho.carry, fun t' r' buf' head' len' h => ?_,
    fun t' t'' h _ => absurd h (hcopied t')⟩
  · unfold pxWritePublish Machine.setWriter Machine.setRing Machine.touch
    dsimp only
    rw [hacc, List.append_assoc]
  · have he := hi.inUse_eq hr hr'
    unfold pxWritePublish Machine.setWriter Machine.setRing
    dsimp only
    rw [he, Function.update_self, hp, hq r (.inl hr)]
  · have he := hi.inUse_eq hr hr'
    unfold pxWritePublish Machine.setWriter Machine.setRing
    dsimp only
    rw [he, Function.update_self, hp, List.length_append]
    exact ⟨hs, hroom⟩
  · exact absurd ⟨r', buf', head', len', h⟩ (hcopied t')

theorem Ordered.writeLeave (ho : Ordered s) (t : ℕ) : Ordered (pxWriteLeave s t) :=
  (ho.setWriter t not_isCopied_idle).frame rfl fun _ _ => rfl

theorem Ordered.detachBegin (ho : Ordered s) : Ordered (pxDetachBegin s) := by
  unfold pxDetachBegin
  split_ifs
  · exact ho
  · exact ho.frame rfl fun _ _ => rfl

/-- The bytes that `px_detach` copies out. -/
theorem carry_eq {ring : Ring} (hs : sizeOk ring.hdr.size = true)
    (hle : ring.pending.length ≤ ring.hdr.size.toNat) :
    memread ring.data (ring.hdr.tail &&& (ring.hdr.size - 1)).toNat
        (min ring.pending.length
          (ring.hdr.size.toNat - (ring.hdr.tail &&& (ring.hdr.size - 1)).toNat)) ++
      memread ring.data 0 (ring.pending.length - min ring.pending.length
          (ring.hdr.size.toNat - (ring.hdr.tail &&& (ring.hdr.size - 1)).toNat)) =
      ring.pending := by
  have hpos : 0 < ring.hdr.size.toNat := by
    have := (sizeOk_iff.mp hs).1
    omega
  rw [and_size hs]
  rw [pending_length] at hle ⊢
  unfold Ring.pending
  rw [window_eq_memread (Nat.mod_lt _ hpos) hle]
  split_ifs with hrun
  · rw [Nat.min_eq_right (Nat.le_of_lt hrun)]
  · rw [Nat.min_eq_left (Nat.le_of_not_lt hrun), Nat.sub_self]
    exact List.append_nil _

theorem Ordered.detachEnd (ho : Ordered s) (hi : Inv s) (now : UInt64) (hd : s.draining ≠ 0)
    (hf : s.px.inflight = 0) : Ordered (pxDetachEnd s true now) := by
  have hidle := hi.idle hf
  have hring : s.px.ring ≠ none := fun h => hd (hi.absent h).2
  obtain ⟨r, hr⟩ := Option.ne_none_iff_exists'.mp hring
  obtain ⟨hs, hle⟩ := ho.good r (.inl hr)
  obtain ⟨q, hacc, hq, -⟩ := ho.order.queue
  -- the ring is out of use, and what it held is carried
  have hlast : ∀ s' : Machine, s'.px.ring = none → s'.attachers = s.attachers →
      s'.writers = s.writers → s'.accepted = s.accepted → s'.consumed = s.consumed →
      s'.refused = s.refused → s'.px.carry.getD [] = (s.rings r.ring_phys).pending →
      Ordered s' := by
    intro s' hr' hat hw hac hcon href hcarry
    have hnot : ∀ r', ¬ s'.InUse r' := by
      rintro r' (h | ⟨t, proc, h⟩)
      · rw [hr'] at h
        cases h
      · rw [hat] at h
        exact hring (hi.attaching t (by rw [h]; exact Option.some_ne_none _)).1
    have hcopied : ∀ t', ¬ (s'.writers t').IsCopied := by
      intro t'
      rw [hw, hidle t']
      exact not_isCopied_idle
    refine ⟨⟨href.trans ho.order.refused, q, ?_, fun r' h => absurd h (hnot r'), fun _ => ?_⟩,
      fun r' h => absurd h (hnot r'), fun r' h => absurd h (hnot r'),
      fun t' r' buf' head' len' h => absurd ⟨r', buf', head', len', h⟩ (hcopied t'),
      fun t' t'' h _ => absurd h (hcopied t')⟩
    · rw [hac, hcon]
      exact hacc
    · rw [hcarry]
      exact hq r (.inl hr)
  have hmin : min ((s.rings r.ring_phys).hdr.head - (s.rings r.ring_phys).hdr.tail).toNat
      (s.rings r.ring_phys).hdr.size.toNat = (s.rings r.ring_phys).pending.length := by
    rw [pending_length] at hle ⊢
    exact Nat.min_eq_left hle
  unfold pxDetachEnd
  dsimp only
  rw [hr]
  dsimp only
  rw [hmin]
  split_ifs with hp
  · refine hlast _ rfl rfl rfl rfl rfl rfl ?_
    exact carry_eq hs hle
  · refine hlast _ rfl rfl rfl rfl rfl rfl ?_
    have hnil : (s.rings r.ring_phys).pending.length = 0 := by
      by_contra h
      exact hp ⟨h, rfl⟩
    rw [List.eq_nil_of_length_eq_zero hnil]
    rfl

theorem Ordered.dropStale (ho : Ordered s) (hno : ∀ r, ¬ s.InUse r) (now : UInt64) :
    Ordered (dropStale s now) := by
  obtain ⟨q, hacc, -, hcarry⟩ := ho.order.queue
  have hq := hcarry hno
  unfold Sndproxy.dropStale
  split
  · exact ho
  · rename_i c hc
    split_ifs
    · rw [hc] at hq
      refine ⟨⟨ho.order.refused, [], ?_, fun r h => absurd h (hno r), fun _ => rfl⟩,
        fun r h => absurd h (hno r), fun r h => absurd h (hno r), ho.copied, ho.one⟩
      show s.accepted.take (s.accepted.length - c.length) = s.consumed ++ []
      rw [hacc, hq, List.append_nil]
      exact List.take_left' (by simp)
    · exact ho

/-- A text copied to the start of a ring is what the ring holds. -/
theorem pending_replay (hdr : SndRingHdr) (data : ℕ → UInt8) (c : List UInt8)
    (ht : hdr.tail = 0) (hc : c.length ≤ hdr.size.toNat) (hh : hdr.head = UInt32.ofNat c.length) :
    Ring.pending { hdr, data := memcpy data 0 c } = c := by
  have := hdr.size.toNat_lt
  unfold Ring.pending
  dsimp only
  rw [hh, ht, UInt32.sub_zero, toNat_ofNat (by omega), UInt32.toNat_zero, Nat.zero_mod]
  exact window_memcpy data hc

/-- The carried audio, or what of it finds room, is in the ring of the request. -/
theorem Ordered.replay (ho : Ordered s) (hi : Inv s) (hno : ∀ r, ¬ s.InUse r) (t proc : ℕ)
    (hs : sizeOk (s.rings r.ring_phys).hdr.size = true)
    (hhead : (s.rings r.ring_phys).hdr.head = 0) (htail : (s.rings r.ring_phys).hdr.tail = 0) :
    Ordered { replay s r with
      attachers := Function.update (replay s r).attachers t (some (r, proc)) } := by
  have hring : s.px.ring = none := by
    cases h : s.px.ring with
    | none => rfl
    | some r' => exact absurd (.inl h) (hno r')
  have hcopied : ∀ t', ¬ (s.writers t').IsCopied := by
    rintro t' ⟨r', buf, head, len, h⟩
    have := hi.holds t' r' (by rw [h]; rfl)
    rw [hring] at this
    cases this
  -- the request's ring is the only one in use
  have hlast : ∀ s' : Machine, s'.px.ring = none → s'.px.carry = none → s'.writers = s.writers →
      s'.attachers = s.attachers → s'.refused = s.refused →
      sizeOk (s'.rings r.ring_phys).hdr.size = true →
      (s'.rings r.ring_phys).pending.length ≤ (s'.rings r.ring_phys).hdr.size.toNat →
      s'.accepted = s'.consumed ++ (s'.rings r.ring_phys).pending →
      Ordered { s' with attachers := Function.update s'.attachers t (some (r, proc)) } := by
    intro s' hr' hc' hw hat href hsize hle hacc
    have huse : ∀ r', ({ s' with
        attachers := Function.update s'.attachers t (some (r, proc)) } : Machine).InUse r' →
        r' = r := by
      rintro r' (h | ⟨t', proc', h⟩)
      · exact absurd (h.symm.trans hr') (Option.some_ne_none _)
      · by_cases he : t' = t
        · dsimp only at h
          rw [he, Function.update_self, Option.some.injEq, Prod.mk.injEq] at h
          exact h.1.symm
        · dsimp only at h
          rw [Function.update_of_ne he, hat] at h
          exact absurd (.inr ⟨t', proc', h⟩) (hno r')
    refine ⟨⟨href.trans ho.order.refused, _, hacc, fun r' h => ?_, fun h => ?_⟩, fun r' h => ?_,
      fun _ _ => hc', fun t' r' buf head len h => ?_, fun t' t'' h _ => ?_⟩
    · rw [huse r' h]
    · exact absurd (.inr ⟨t, proc, Function.update_self ..⟩) (h r)
    · rw [huse r' h]
      exact ⟨hsize, hle⟩
    · dsimp only at h
      rw [hw] at h
      exact absurd ⟨_, _, _, _, h⟩ (hcopied t')
    · dsimp only at h
      rw [hw] at h
      exact absurd h (hcopied t')
  obtain ⟨q, hacc, -, hcarry⟩ := ho.order.queue
  have hq := hcarry hno
  unfold Sndproxy.replay
  split
  · rename_i hc
    have hnil : (s.rings r.ring_phys).pending = [] := by
      apply List.eq_nil_of_length_eq_zero
      rw [pending_length, hhead, htail]
      rfl
    rw [hc] at hq
    refine hlast s hring hc rfl rfl rfl hs ?_ ?_
    · rw [hnil]
      exact Nat.zero_le _
    · rw [hnil, hacc, hq]
      rfl
  · rename_i c hc
    rw [hc] at hq
    have hn : (c.take (min c.length (s.rings r.ring_phys).hdr.size.toNat)).length =
        min c.length (s.rings r.ring_phys).hdr.size.toNat := by simp
    have hp := pending_replay { (s.rings r.ring_phys).hdr with
        head := UInt32.ofNat (min c.length (s.rings r.ring_phys).hdr.size.toNat) }
      (s.rings r.ring_phys).data (c.take (min c.length (s.rings r.ring_phys).hdr.size.toNat))
      htail (by rw [hn]; exact Nat.min_le_right ..) (by rw [hn])
    refine hlast _ hring rfl rfl rfl rfl ?_ ?_ ?_
    · unfold Machine.forgive
      dsimp only
      rw [Function.update_self]
      exact hs
    · unfold Machine.forgive
      dsimp only
      rw [Function.update_self, hp, hn]
      exact Nat.min_le_right ..
    · unfold Machine.forgive
      dsimp only
      rw [Function.update_self, hp, hacc, hq, Option.getD_some, List.length_append]
      have hle : min c.length (s.rings r.ring_phys).hdr.size.toNat ≤ c.length := Nat.min_le_left ..
      rw [show s.consumed.length + c.length -
          (c.length - min c.length (s.rings r.ring_phys).hdr.size.toNat) =
          s.consumed.length + min c.length (s.rings r.ring_phys).hdr.size.toNat by omega,
        List.take_length_add_append]

theorem Ordered.attachBegin (ho : Ordered s) (hi : Inv s) (hd : s.draining = 0)
    (hnone : ∀ t, s.attachers t = none) (t proc : ℕ) (req : SndsrvAttach) (now : UInt64) :
    Ordered (attachBegin s t proc req now) := by
  unfold Sndproxy.attachBegin
  dsimp only
  split_ifs with _ ha hlen _ hchk
  · exact ho
  · exact ho
  · exact ho
  · exact ho
  · exact ho.frame rfl fun _ _ => rfl
  · have hring : s.px.ring = none := hi.ring_none (by simpa using ha) hd
    have hno : ∀ r, ¬ s.InUse r := by
      rintro r (h | ⟨t', proc', h⟩)
      · exact absurd (h.symm.trans hring) (Option.some_ne_none _)
      · exact absurd (h.symm.trans (hnone t')) (Option.some_ne_none _)
    have ho : Ordered (resetRing { s with
        accesses := ⟨req.ring, true, 0, sizeofHdr⟩ :: s.accesses } req.ring) :=
      (ho.sameRings hi (resetRing s req.ring).rings fun r h => absurd h (hno r)).frame rfl
        fun _ _ => rfl
    have hi : Inv (resetRing { s with
        accesses := ⟨req.ring, true, 0, sizeofHdr⟩ :: s.accesses } req.ring) := by
      refine Inv.frame (hi.access ⟨req.ring, true, 0, sizeofHdr⟩ ⟨rfl, ?_⟩) rfl rfl
      unfold sizeofHdr
      unfold SNDSRV_DATA_OFFSET at hlen
      dsimp only
      omega
    refine (ho.dropStale hno now).replay (hi.dropStale now) (fun r h => hno r ?_) t proc ?_ ?_ ?_
    · have h := (inUse_congr (dropStale_view _ now)).mp h
      exact h
    · rw [dropStale_rings, resetRing_hdr]
      by_contra hsize
      exact hchk (.inr (.inl (by simpa using hsize)))
    · rw [dropStale_rings, resetRing_hdr]
    · rw [dropStale_rings, resetRing_hdr]

theorem Ordered.attachEnd (ho : Ordered s) (hi : Inv s) (t : ℕ) :
    Ordered (attachEnd s t true) := by
  unfold Sndproxy.attachEnd
  split
  · exact ho
  · rename_i r proc ht
    obtain ⟨hring, hone⟩ := hi.attaching t (by rw [ht]; exact Option.some_ne_none _)
    have huse : s.InUse r := .inr ⟨t, proc, ht⟩
    obtain ⟨q, hacc, hq, -⟩ := ho.order.queue
    dsimp only
    rw [if_neg (by rw [(hi.absent hring).1]; exact Bool.false_ne_true), if_pos rfl]
    have huse' : ∀ r', ({ s with
        attachers := Function.update s.attachers t none
        px := { s.px with
          ring := some r, owner := some proc, written := 0, dropped := 0, calls := 0
          inflight := 0, attached := true } } : Machine).InUse r' → r' = r := by
      rintro r' (h | ⟨t', proc', h⟩)
      · exact (Option.some.inj h).symm
      · dsimp only at h
        by_cases he : t' = t
        · rw [he, Function.update_self] at h
          cases h
        · rw [Function.update_of_ne he] at h
          exact absurd (hone t' (by rw [h]; exact Option.some_ne_none _)) he
    refine ⟨⟨ho.order.refused, q, hacc, fun r' h => ?_, fun h => absurd (.inl rfl) (h r)⟩,
      fun r' h => ?_, fun r' _ => ho.carry r huse, ho.copied, ho.one⟩
    · rw [huse' r' h]
      exact hq r huse
    · rw [huse' r' h]
      exact ho.good r huse

theorem Ordered.consume (ho : Ordered s) (hi : Inv s) (n : ℕ) : Ordered (consume s n) := by
  unfold Sndproxy.consume
  split
  · exact ho
  · rename_i r hr
    dsimp only
    split_ifs with hn
    · obtain ⟨hs, hle⟩ := ho.good r (.inl hr)
      obtain ⟨q, hacc, hq, -⟩ := ho.order.queue
      have hn : n ≤ (s.rings r.ring_phys).pending.length := by
        rw [pending_length]
        exact hn.2
      have hp := pending_consume hs hn _ rfl
      refine ⟨⟨ho.order.refused, q.drop n, ?_, fun r' hr' => ?_,
        fun h => absurd (.inl hr) (h r)⟩, fun r' hr' => ?_, ho.carry,
        fun t r' buf head len hw => ?_, ho.one⟩
      · show s.accepted = (s.consumed ++ (s.rings r.ring_phys).pending.take n) ++ q.drop n
        rw [← hq r (.inl hr), List.append_assoc, List.take_append_drop]
        exact hacc
      · have he := hi.inUse_eq hr hr'
        unfold Machine.setRing
        dsimp only
        rw [he, Function.update_self, hp, hq r (.inl hr)]
      · have he := hi.inUse_eq hr hr'
        unfold Machine.setRing
        dsimp only
        rw [he, Function.update_self, hp, List.length_drop]
        exact ⟨hs, Nat.le_trans (Nat.sub_le ..) hle⟩
      · have he : r' = r := Option.some.inj ((hi.holds t r' (by
          have hw : s.writers t = _ := hw
          rw [hw]
          rfl)).symm.trans hr)
        obtain ⟨hhead, hlen, hroom, htext⟩ := ho.copied t r' buf head len hw
        rw [he] at hhead hroom htext ⊢
        unfold Machine.setRing
        dsimp only
        rw [Function.update_self]
        refine ⟨hhead, hlen, ?_, htext⟩
        rw [hp, List.length_drop]
        dsimp only
        omega
    · exact ho

theorem Ordered.step (ho : Ordered s) (hi : Inv s) {a : Act} (hk : Kind s a) (hf : Follows s a) :
    Ordered (step s a) := by
  unfold Sndproxy.step
  cases a with
  | writeEnter t buf =>
    dsimp only
    split
    · exact ho.writeEnter t buf
    · exact ho
  | writeCopy t =>
    dsimp only
    split
    · rename_i r buf ht
      obtain ⟨-, hlen, hnone⟩ := hk r buf ht
      exact ho.writeCopy hi ht hlen fun t' ⟨_, _, _, _, h⟩ => hnone t' _ _ _ _ h
    · exact ho
  | writePublish t =>
    dsimp only
    split
    · exact ho.writePublish hi ‹_›
    · exact ho
  | writeLeave t =>
    dsimp only
    split
    · exact ho.writeLeave t
    · exact ho
  | detachBegin proc =>
    dsimp only
    split_ifs
    · exact ho.detachBegin
    · exact ho
  | detachEnd alloc now =>
    dsimp only
    split_ifs with h
    · rw [hk.1]
      exact ho.detachEnd hi now h.1 h.2
    · exact ho
  | attachBegin t proc req now => exact ho.attachBegin hi hk.1 hk.2 t proc req now
  | attachEnd t registers =>
    have hk : registers = true := hk
    rw [hk]
    exact ho.attachEnd hi t
  | consume n => exact ho.consume hi n
  | storeHdr phys hdr =>
    refine ho.sameRings hi _ fun r hr => ?_
    by_cases he : r.ring_phys = phys
    · obtain ⟨h1, h2, h3⟩ := hf ⟨r, hr, he⟩
      rw [he, Function.update_self]
      exact ⟨h1, h2, h3, rfl⟩
    · rw [Function.update_of_ne he]
      exact ⟨rfl, rfl, rfl, rfl⟩
  | storeData phys i b =>
    refine ho.sameRings hi _ fun r hr => ?_
    have he : r.ring_phys ≠ phys := fun he => hf ⟨r, hr, he⟩
    rw [Function.update_of_ne he]
    exact ⟨rfl, rfl, rfl, rfl⟩

/-- Nothing is attached, and memory is whatever it is. -/
def start (rings : ℕ → Ring) : Machine := { rings }

theorem inv_start (rings : ℕ → Ring) : Inv (start rings) where
  inBounds := fun _ h => absurd h List.not_mem_nil
  counted := ⟨∅, fun t => iff_of_false (fun h => h rfl) (Finset.notMem_empty t), rfl⟩
  holds := fun _ _ h => h.elim
  busy := fun _ h => absurd rfl h
  present := fun h => absurd rfl h
  absent := fun _ => ⟨rfl, rfl⟩
  attaching := fun _ h => absurd rfl h
  large := by
    rintro r (h | ⟨t, proc, h⟩)
    · cases h
    · cases h

theorem ordered_start (rings : ℕ → Ring) : Ordered (start rings) := by
  have hno : ∀ r, ¬ (start rings).InUse r := by
    rintro r (h | ⟨t, proc, h⟩)
    · cases h
    · cases h
  exact ⟨⟨rfl, [], rfl, fun r h => absurd h (hno r), fun _ => rfl⟩,
    fun r h => absurd h (hno r), fun r h => absurd h (hno r),
    fun t r buf head len h => (by cases h), fun t t' h => absurd h not_isCopied_idle⟩

/-- In every run of kind steps the proxy keeps to the buffer that was attached, whatever the
server stores, and with servers that follow the protocol it keeps the audio. -/
theorem exec_keeps_audio (rings : ℕ → Ring) (as : List Act)
    (hk : Respects Kind step (start rings) as) :
    (∀ a ∈ (run step (start rings) as).accesses, a.InBounds) ∧
      (Respects Follows step (start rings) as → InOrder (run step (start rings) as)) := by
  refine ⟨(hk.invariant (fun _ _ hi hk => hi.step hk) (inv_start rings)).inBounds, fun hf => ?_⟩
  exact ((hk.and hf).invariant (I := fun s => Inv s ∧ Ordered s)
    (fun _ _ h ha => ⟨h.1.step ha.1, h.2.step h.1 ha.1 ha.2⟩)
    ⟨inv_start rings, ordered_start rings⟩).2.order

def someRings : ℕ → Ring := fun _ => { hdr := { size := 4096 }, data := fun _ => 0 }

/-- A server of process 5 attaches a ring of 4096 bytes. -/
def attachRun : List Act :=
  [.attachBegin 1 5 { ring := ⟨0x8000, 8192⟩, allowed := true, owns := true } 0, .attachEnd 1 true]

/-- A write, of which the server takes two bytes before it detaches. -/
def writeRun : List Act :=
  attachRun ++ [.writeEnter 2 [1, 2, 3], .writeCopy 2, .writePublish 2, .writeLeave 2, .consume 2,
    .detachBegin 5, .detachEnd true 0]

theorem exec_keeps_audio_write :
    (∀ a ∈ (run step (start someRings) writeRun).accesses, a.InBounds) ∧
      (Respects Follows step (start someRings) writeRun →
        InOrder (run step (start someRings) writeRun)) := by
  refine exec_keeps_audio someRings writeRun ⟨⟨rfl, fun _ => rfl⟩, rfl, trivial,
    fun r buf h => ?_, trivial, trivial, trivial, trivial, ⟨rfl, fun r h => ?_⟩, trivial⟩
  · have hw : Writer.inside ⟨0x8000, 8192⟩ [1, 2, 3] = .inside r buf := h
    cases hw
    refine ⟨?_, ?_, fun t' r' buf' head len h => ?_⟩
    · decide +kernel
    · decide +kernel
    · by_cases he : t' = 2
      · rw [he] at h
        cases h
      · have hi : Function.update (fun _ => Writer.idle) 2 (.inside ⟨0x8000, 8192⟩ [1, 2, 3]) t' =
            .copied r' buf' head len := h
        rw [Function.update_of_ne he] at hi
        cases hi
  · have hr : some (⟨0x8000, 8192⟩ : RingRef) = some r := h
    cases hr
    decide +kernel

/-- The server stores a larger size into the header than its buffer has, and a head out there. -/
def badSize : List Act :=
  attachRun ++ [.storeHdr 0x8000 { size := 0x80000000, head := 0x40000000, tail := 0x40000000 },
    .writeEnter 2 [1], .writeCopy 2]

theorem not_exec_keeps_audio : ¬ ∀ rings as,
    (∀ a ∈ (run step (start rings) as).accesses, a.InBounds) ∧
      (Respects Follows step (start rings) as → InOrder (run step (start rings) as)) := by
  intro h
  have hb := (h someRings badSize).1 ⟨⟨0x8000, 8192⟩, true, 0x40001000, 1⟩ (by decide +kernel)
  exact absurd hb.2 (by decide)

end Xeneva.Sndproxy
