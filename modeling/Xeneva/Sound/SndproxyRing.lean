import Xeneva.Sound.Sndproxy

/-!
# The proxy keeps the audio, and to its buffer
-/

namespace Xeneva.Sndproxy
open Base

variable {s : Machine} {size head tail : UInt32}

theorem sizeOk_iff : sizeOk size = true ↔ 4096 ≤ size.toNat ∧ size.toNat.isPowerOfTwo := by
  unfold sizeOk
  rw [Bool.and_eq_true, decide_eq_true_iff, beq_iff_eq, UInt32.le_iff_toNat_le]
  refine and_congr_right fun h => ?_
  have h4 : 4096 ≤ size.toNat := h
  rw [← Nat.and_sub_one_eq_zero_iff_isPowerOfTwo (by omega), ← UInt32.toNat_inj, UInt32.toNat_and,
    UInt32.toNat_sub_of_le _ _ (UInt32.le_iff_toNat_le.mpr (by simp; omega))]
  rfl

theorem size_dvd (hs : sizeOk size = true) : size.toNat ∣ 2 ^ 32 := by
  obtain ⟨h4, k, hk⟩ := sizeOk_iff.mp hs
  rw [hk]
  refine pow_dvd_pow 2 ?_
  by_contra hlt
  have hpow : 2 ^ 33 ≤ 2 ^ k := Nat.pow_le_pow_right (by omega) (by omega)
  have := size.toNat_lt
  omega

theorem and_size_lt (head : UInt32) (h : size ≠ 0) : (head &&& (size - 1)).toNat < size.toNat := by
  have hpos : 0 < size.toNat := by
    rw [Nat.pos_iff_ne_zero]
    exact fun h0 => h (UInt32.toNat_inj.mp h0)
  have hle : (head &&& (size - 1)).toNat ≤ (size - 1).toNat := by
    rw [UInt32.toNat_and]
    exact Nat.and_le_right
  have hone : (1 : UInt32).toNat = 1 := rfl
  rw [UInt32.toNat_sub_of_le _ _ (UInt32.le_iff_toNat_le.mpr (by rw [hone]; exact hpos)),
    hone] at hle
  omega

theorem and_size (hs : sizeOk size = true) :
    (head &&& (size - 1)).toNat = head.toNat % size.toNat := by
  obtain ⟨h4, k, hk⟩ := sizeOk_iff.mp hs
  rw [UInt32.toNat_and,
    UInt32.toNat_sub_of_le _ _ (UInt32.le_iff_toNat_le.mpr (by simp; omega)), hk]
  exact Nat.and_two_pow_sub_one_eq_mod ..

/-- The place of `head` is the fill level past that of `tail`. -/
theorem head_place (hs : sizeOk size = true) :
    (tail.toNat % size.toNat + (head - tail).toNat) % size.toNat = head.toNat % size.toNat := by
  have h32 : tail.toNat + (head - tail).toNat ≡ head.toNat [MOD 2 ^ 32] := by
    rw [UInt32.toNat_sub]
    have := tail.toNat_lt
    have := head.toNat_lt
    unfold Nat.ModEq
    omega
  rw [Nat.mod_add_mod]
  exact h32.of_dvd (size_dvd hs)

theorem toNat_add_mod (hs : sizeOk size = true) (n : ℕ) (hn : n < 2 ^ 32) :
    (tail + UInt32.ofNat n).toNat % size.toNat = (tail.toNat % size.toNat + n) % size.toNat := by
  rw [UInt32.toNat_add, UInt32.toNat_ofNat_of_lt' hn, Nat.mod_mod_of_dvd _ (size_dvd hs),
    Nat.mod_add_mod]

theorem toNat_ofNat {n : ℕ} (hn : n < 2 ^ 32) : (UInt32.ofNat n).toNat = n :=
  UInt32.toNat_ofNat_of_lt' hn

theorem fill_produce {n : ℕ} (h : (head - tail).toNat + n < 2 ^ 32) :
    (head + UInt32.ofNat n - tail).toNat = (head - tail).toNat + n := by
  rw [UInt32.toNat_sub, UInt32.toNat_add, toNat_ofNat (by omega)]
  rw [UInt32.toNat_sub] at h ⊢
  have := tail.toNat_lt
  have := head.toNat_lt
  omega

theorem fill_consume {n : ℕ} (h : n ≤ (head - tail).toNat) :
    (head - (tail + UInt32.ofNat n)).toNat = (head - tail).toNat - n := by
  have hlt := (head - tail).toNat_lt
  rw [UInt32.toNat_sub, UInt32.toNat_add, toNat_ofNat (by omega)]
  rw [UInt32.toNat_sub] at h hlt ⊢
  have := tail.toNat_lt
  have := head.toNat_lt
  omega

theorem copyIn_eq_ringWrite (data : ℕ → UInt8) (size off : ℕ) (buf : List UInt8) :
    copyIn data size off buf.length buf = ringWrite data size off buf := by
  unfold copyIn ringWrite
  dsimp only
  rw [List.take_length]
  by_cases h : buf.length > size - off
  · rw [if_pos h, Nat.min_eq_right (Nat.le_of_lt h), if_pos h]
  · rw [if_neg h, Nat.min_eq_left (Nat.le_of_not_lt h), if_neg (Nat.lt_irrefl _), List.take_length]

variable {r : Ring}

theorem pending_length : r.pending.length = (r.hdr.head - r.hdr.tail).toNat := window_length ..

theorem pending_publish (hs : sizeOk r.hdr.size = true) {buf : List UInt8}
    (hroom : r.pending.length + buf.length ≤ r.hdr.size.toNat)
    (hbuf : window r.data r.hdr.size.toNat (r.hdr.head.toNat % r.hdr.size.toNat) buf.length = buf)
    (hdr : SndRingHdr)
    (hh : hdr = { r.hdr with head := r.hdr.head + UInt32.ofNat buf.length }) :
    Ring.pending { r with hdr } = r.pending ++ buf := by
  have := r.hdr.size.toNat_lt
  rw [pending_length] at hroom
  unfold Ring.pending
  rw [hh]
  dsimp only
  rw [fill_produce (by omega), window_add, head_place hs, hbuf]

theorem pending_consume (hs : sizeOk r.hdr.size = true) {n : ℕ} (hn : n ≤ r.pending.length)
    (hdr : SndRingHdr) (hh : hdr = { r.hdr with tail := r.hdr.tail + UInt32.ofNat n }) :
    Ring.pending { r with hdr } = r.pending.drop n := by
  rw [pending_length] at hn
  have := (r.hdr.head - r.hdr.tail).toNat_lt
  unfold Ring.pending
  rw [hh, window_drop hn]
  dsimp only
  rw [fill_consume hn, toNat_add_mod hs n (by omega)]

theorem pending_copy (hs : sizeOk r.hdr.size = true) {buf : List UInt8}
    (hroom : r.pending.length + buf.length ≤ r.hdr.size.toNat) (data : ℕ → UInt8)
    (hd : data = ringWrite r.data r.hdr.size.toNat
      (r.hdr.head &&& (r.hdr.size - 1)).toNat buf) :
    Ring.pending { r with data } = r.pending ∧
      window data r.hdr.size.toNat (r.hdr.head.toNat % r.hdr.size.toNat) buf.length = buf := by
  have hpos : 0 < r.hdr.size.toNat := by
    have := (sizeOk_iff.mp hs).1
    omega
  rw [pending_length] at hroom
  have hw := window_ringWrite (b := r.data) (Nat.mod_lt r.hdr.tail.toNat hpos) hroom
  rw [head_place hs, ← and_size hs, ← hd, window_add, head_place hs] at hw
  have hlen : (window data r.hdr.size.toNat (r.hdr.tail.toNat % r.hdr.size.toNat)
      (r.hdr.head - r.hdr.tail).toNat).length = r.pending.length := by
    rw [window_length, pending_length]
  exact List.append_inj hw hlen

/-! ## Who is where -/

/-- The thread is inside `px_write` with this ring. -/
def Writer.Holds (w : Writer) (r : RingRef) : Prop :=
  match w with
  | .inside r' _ => r' = r
  | .copied r' _ _ _ => r' = r
  | _ => False

/-- The writers are counted, and those that still touch a ring touch the attached one, which
stays until they are out; nothing attaches while a ring is in place. -/
structure Inv (s : Machine) : Prop where
  inBounds : ∀ a ∈ s.accesses, a.InBounds
  counted : ∃ S : Finset ℕ, (∀ t, s.writers t ≠ .idle ↔ t ∈ S) ∧ s.px.inflight = S.card
  holds : ∀ t r, (s.writers t).Holds r → s.px.ring = some r
  busy : ∀ t, s.writers t ≠ .idle → s.px.ring ≠ none
  present : s.px.ring ≠ none → s.px.attached = true ∧ s.draining = 0 ∨
    s.px.attached = false ∧ s.draining = 1
  absent : s.px.ring = none → s.px.attached = false ∧ s.draining = 0
  attaching : ∀ t, s.attachers t ≠ none → s.px.ring = none ∧ ∀ t', s.attachers t' ≠ none → t' = t
  large : ∀ r, s.InUse r → SNDSRV_DATA_OFFSET + 4096 ≤ r.ring_len

variable {r : RingRef} {t : ℕ}

theorem Inv.idle (hi : Inv s) (h0 : s.px.inflight = 0) : ∀ t, s.writers t = .idle := by
  obtain ⟨S, hS, hcard⟩ := hi.counted
  have hempty : S = ∅ := by
    rw [← Finset.card_eq_zero]
    omega
  intro t
  by_contra ht
  have hmem := (hS t).mp ht
  rw [hempty] at hmem
  exact absurd hmem (Finset.notMem_empty t)

/-- A writer that stays inside, with the ring it has or with none. -/
theorem Inv.setWriter (hi : Inv s) (ht : s.writers t ≠ .idle) {w : Writer} (hw : w ≠ .idle)
    (hh : ∀ r, w.Holds r → (s.writers t).Holds r) : Inv (s.setWriter t w) := by
  have hidle : ∀ t', (s.setWriter t w).writers t' ≠ .idle ↔ s.writers t' ≠ .idle := by
    intro t'
    unfold Machine.setWriter
    dsimp only
    by_cases he : t' = t
    · rw [he, Function.update_self]
      exact iff_of_true hw ht
    · rw [Function.update_of_ne he]
  obtain ⟨S, hS, hcard⟩ := hi.counted
  refine { hi with
    counted := ⟨S, fun t' => (hidle t').trans (hS t'), hcard⟩
    holds := fun t' r' h => ?_
    busy := fun t' h => hi.busy t' ((hidle t').mp h) }
  unfold Machine.setWriter at h
  dsimp only at h
  by_cases he : t' = t
  · rw [he, Function.update_self] at h
    exact hi.holds t r' (hh r' h)
  · rw [Function.update_of_ne he] at h
    exact hi.holds t' r' h

/-- Who is where, all that the invariant is about beside the accesses. -/
def Machine.view (s : Machine) :=
  (s.px.attached, s.px.inflight, s.px.ring, s.writers, s.attachers, s.draining)

theorem Inv.frame {s' : Machine} (hi : Inv s) (h : s'.view = s.view)
    (hacc : s'.accesses = s.accesses) : Inv s' := by
  unfold Machine.view at h
  simp only [Prod.mk.injEq] at h
  obtain ⟨ha, hf, hr, hw, hat, hd⟩ := h
  obtain ⟨hb, hc, hh, hbusy, hp, hab, hatt, hl⟩ := hi
  unfold Machine.InUse at hl
  rw [← hacc] at hb
  rw [← hw, ← hf] at hc
  rw [← hw, ← hr] at hh hbusy
  rw [← hr, ← ha, ← hd] at hp hab
  rw [← hat, ← hr] at hatt hl
  exact ⟨hb, hc, hh, hbusy, hp, hab, hatt, hl⟩

theorem Inv.touch (hi : Inv s) (hr : s.px.ring = some r) {off len : ℕ}
    (h : off + len ≤ r.ring_len) : Inv (s.touch r off len) := by
  refine { hi with inBounds := fun a ha => ?_ }
  rcases List.mem_cons.mp ha with rfl | ha
  · exact ⟨beq_iff_eq.mpr hr, h⟩
  · exact hi.inBounds a ha

theorem Inv.touchHdr (hi : Inv s) (hr : s.px.ring = some r) : Inv (s.touch r 0 sizeofHdr) := by
  have hlarge := hi.large r (.inl hr)
  refine hi.touch hr ?_
  unfold sizeofHdr
  unfold SNDSRV_DATA_OFFSET at hlarge
  omega

/-- The bytes of a ring whose size fits. -/
theorem Inv.touchRing (hi : Inv s) (hr : s.px.ring = some r) (size off len : ℕ) (hoff : off < size)
    (hlen : len ≤ size) (hfit : size + SNDSRV_DATA_OFFSET ≤ r.ring_len) :
    Inv (s.touchRing r size off len) := by
  have h1 : SNDSRV_DATA_OFFSET + off + min len (size - off) ≤ r.ring_len := by omega
  have h2 : SNDSRV_DATA_OFFSET + (len - min len (size - off)) ≤ r.ring_len := by omega
  exact (hi.touch hr h1).touch hr h2

/-! ### One lemma an operation -/

theorem Inv.writeEnter (hi : Inv s) (ht : s.writers t = .idle) (buf : List UInt8) :
    Inv (pxWriteEnter s t buf) := by
  unfold pxWriteEnter
  split_ifs
  · exact hi
  · exact hi
  · cases hr : s.px.ring with
    | none => exact hi
    | some r =>
      dsimp only
      obtain ⟨S, hS, hcard⟩ := hi.counted
      have htS : t ∉ S := fun h => (hS t).mpr h ht
      refine { hi with
        counted := ⟨insert t S, fun t' => ?_, ?_⟩
        holds := fun t' r' h => ?_
        busy := fun _ _ h => Option.some_ne_none r (hr.symm.trans h) }
      · unfold Machine.setWriter
        dsimp only
        rw [Finset.mem_insert]
        by_cases he : t' = t
        · rw [he, Function.update_self]
          exact iff_of_true (fun h => by cases h) (.inl rfl)
        · rw [Function.update_of_ne he, hS t']
          exact ⟨.inr, fun h => h.resolve_left he⟩
      · rw [Finset.card_insert_of_notMem htS]
        unfold Machine.setWriter
        dsimp only
        omega
      · unfold Machine.setWriter at h ⊢
        dsimp only at h ⊢
        by_cases he : t' = t
        · rw [he, Function.update_self] at h
          rw [hr, ← show r = r' from h]
        · rw [Function.update_of_ne he] at h
          exact hi.holds t' r' h

theorem Inv.writeCopy (hi : Inv s) {buf : List UInt8} (ht : s.writers t = .inside r buf)
    (hfit : (s.rings r.ring_phys).hdr.size.toNat + SNDSRV_DATA_OFFSET ≤ r.ring_len) :
    Inv (pxWriteCopy s t r buf) := by
  have hr : s.px.ring = some r := hi.holds t r (by rw [ht]; rfl)
  have hne : s.writers t ≠ .idle := fun h => by rw [ht] at h; cases h
  have hleave : ∀ r', Writer.leaving.Holds r' → (s.writers t).Holds r' := fun _ h => h.elim
  have hi := hi.touchHdr hr
  unfold pxWriteCopy
  dsimp only
  split_ifs with hs hfull
  · exact (hi.setWriter hne (fun h => by cases h) hleave).frame rfl rfl
  · have hpos : (s.rings r.ring_phys).hdr.size ≠ 0 := by
      intro h0
      rw [h0] at hs
      cases hs
    have hring := hi.touchRing hr _ _ (min buf.length _)
      (and_size_lt (s.rings r.ring_phys).hdr.head hpos) (Nat.min_le_right ..) hfit
    have hcopied : ∀ head len r', (Writer.copied r buf head len).Holds r' →
        (s.writers t).Holds r' := by
      intro head len r' h
      rw [ht]
      exact h
    exact (hring.setWriter hne (fun h => by cases h) (hcopied _ _)).frame rfl rfl
  · exact (hi.setWriter hne (fun h => by cases h) hleave).frame rfl rfl

theorem Inv.writePublish (hi : Inv s) {buf : List UInt8} {head : UInt32} {len : ℕ}
    (ht : s.writers t = .copied r buf head len) : Inv (pxWritePublish s t r buf head len) := by
  have hr : s.px.ring = some r := hi.holds t r (by rw [ht]; rfl)
  have hne : s.writers t ≠ .idle := fun h => by rw [ht] at h; cases h
  have hleave : ∀ r', Writer.leaving.Holds r' → (s.writers t).Holds r' := fun _ h => h.elim
  exact ((hi.touchHdr hr).setWriter hne (fun h => by cases h) hleave).frame rfl rfl

theorem Inv.writeLeave (hi : Inv s) (ht : s.writers t = .leaving) : Inv (pxWriteLeave s t) := by
  obtain ⟨S, hS, hcard⟩ := hi.counted
  have htS : t ∈ S := (hS t).mp fun h => by rw [ht] at h; cases h
  have hidle : ∀ t', (pxWriteLeave s t).writers t' ≠ .idle → t' ≠ t ∧ s.writers t' ≠ .idle := by
    intro t' h
    unfold pxWriteLeave Machine.setWriter at h
    dsimp only at h
    by_cases he : t' = t
    · rw [he, Function.update_self] at h
      exact absurd rfl h
    · rw [Function.update_of_ne he] at h
      exact ⟨he, h⟩
  refine { hi with
    counted := ⟨S.erase t, fun t' => ?_, ?_⟩
    holds := fun t' r' h => ?_
    busy := fun t' h => hi.busy t' (hidle t' h).2 }
  · rw [Finset.mem_erase, ← hS t']
    refine ⟨hidle t', fun h => ?_⟩
    unfold pxWriteLeave Machine.setWriter
    dsimp only
    rw [Function.update_of_ne h.1]
    exact h.2
  · have hpos : 0 < S.card := Finset.card_pos.mpr ⟨t, htS⟩
    rw [Finset.card_erase_of_mem htS]
    unfold pxWriteLeave Machine.setWriter
    dsimp only
    omega
  · unfold pxWriteLeave Machine.setWriter at h
    dsimp only at h
    by_cases he : t' = t
    · rw [he, Function.update_self] at h
      exact h.elim
    · rw [Function.update_of_ne he] at h
      exact hi.holds t' r' h

theorem Inv.detachBegin (hi : Inv s) : Inv (pxDetachBegin s) := by
  unfold pxDetachBegin
  split_ifs with ha
  · exact hi
  · have hatt : s.px.attached = true := by
      cases h : s.px.attached with
      | true => rfl
      | false => rw [h] at ha; exact absurd rfl ha
    have hring : s.px.ring ≠ none := by
      intro h
      have := (hi.absent h).1
      rw [hatt] at this
      cases this
    have h0 : s.draining = 0 := by
      rcases hi.present hring with ⟨-, h0⟩ | ⟨h, -⟩
      · exact h0
      · rw [hatt] at h
        cases h
    refine { hi with
      present := fun _ => .inr ⟨rfl, ?_⟩
      absent := fun h => absurd h hring }
    dsimp only
    omega

theorem Inv.detachEnd (hi : Inv s) (alloc : Bool) (now : UInt64) (hd : s.draining ≠ 0)
    (hf : s.px.inflight = 0) (hfit : ∀ r, s.px.ring = some r →
      (s.rings r.ring_phys).hdr.size.toNat + SNDSRV_DATA_OFFSET ≤ r.ring_len) :
    Inv (pxDetachEnd s alloc now) := by
  have hidle := hi.idle hf
  have hring : s.px.ring ≠ none := fun h => hd (hi.absent h).2
  have hphase : s.px.attached = false ∧ s.draining = 1 := by
    rcases hi.present hring with ⟨-, h0⟩ | h
    · exact absurd h0 hd
    · exact h
  -- all that is left to check are the accesses
  have hlast : ∀ s' : Machine, Inv s' → s'.writers = s.writers → s'.attachers = s.attachers →
      s'.draining = s.draining → s'.px.attached = s.px.attached → s'.px.inflight = s.px.inflight →
      Inv { s' with px := { s'.px with ring := none, owner := none }, draining := s'.draining - 1 } := by
    intro s' hi' hw hat hdr ha hfl
    have hnone : ∀ t, s.attachers t = none := by
      intro t
      by_contra h
      exact hring (hi.attaching t h).1
    refine { hi' with
      holds := fun t r h => ?_
      busy := fun t h => ?_
      present := fun h => absurd rfl h
      absent := fun _ => ?_
      attaching := fun t h => ?_
      large := fun r h => ?_ }
    · dsimp only at h
      rw [hw, hidle t] at h
      exact h.elim
    · dsimp only at h
      rw [hw, hidle t] at h
      exact absurd rfl h
    · dsimp only
      rw [ha, hdr, hphase.2]
      exact ⟨hphase.1, rfl⟩
    · dsimp only at h
      rw [hat, hnone t] at h
      exact absurd rfl h
    · rcases h with h | ⟨t, proc, h⟩
      · cases h
      · dsimp only at h
        rw [hat, hnone t] at h
        cases h
  unfold pxDetachEnd
  dsimp only
  split
  · rename_i hr
    exact absurd hr hring
  · rename_i r hr
    have htouch := hi.touchHdr hr
    split_ifs with hp
    · have hpos : (s.rings r.ring_phys).hdr.size ≠ 0 := by
        intro h0
        apply hp.1
        rw [h0]
        exact Nat.min_eq_right (Nat.zero_le _)
      have hring := htouch.touchRing hr _ _ _ (and_size_lt (s.rings r.ring_phys).hdr.tail hpos)
        (Nat.min_le_right ((s.rings r.ring_phys).hdr.head - (s.rings r.ring_phys).hdr.tail).toNat _)
        (hfit r hr)
      exact (hlast _ hring rfl rfl rfl rfl rfl).frame rfl rfl
    · exact (hlast _ htouch rfl rfl rfl rfl rfl).frame rfl rfl

theorem Inv.dropStale (hi : Inv s) (now : UInt64) : Inv (dropStale s now) := by
  unfold Sndproxy.dropStale
  split
  · exact hi
  · split_ifs
    · exact hi.frame rfl rfl
    · exact hi

theorem Inv.access (hi : Inv s) (a : Access) (ha : a.InBounds) :
    Inv { s with accesses := a :: s.accesses } := by
  refine { hi with inBounds := fun b hb => ?_ }
  rcases List.mem_cons.mp hb with rfl | hb
  · exact ha
  · exact hi.inBounds b hb

theorem Inv.replay (hi : Inv s)
    (hfit : (s.rings r.ring_phys).hdr.size.toNat + SNDSRV_DATA_OFFSET ≤ r.ring_len) :
    Inv (replay s r) := by
  unfold Sndproxy.replay
  split
  · exact hi
  · rename_i c hc
    refine (hi.access ⟨r, true, SNDSRV_DATA_OFFSET,
      min c.length (s.rings r.ring_phys).hdr.size.toNat⟩ ⟨rfl, ?_⟩).frame rfl rfl
    dsimp only
    omega

@[simp] theorem dropStale_rings (s : Machine) (now : UInt64) :
    (dropStale s now).rings = s.rings := by
  unfold dropStale
  split
  · rfl
  · split_ifs <;> rfl

@[simp] theorem dropStale_view (s : Machine) (now : UInt64) :
    (dropStale s now).view = s.view := by
  unfold dropStale
  split
  · rfl
  · split_ifs <;> rfl

@[simp] theorem replay_view (s : Machine) (r : RingRef) : (replay s r).view = s.view := by
  unfold replay
  split <;> rfl

theorem resetRing_hdr (s : Machine) (r : RingRef) :
    ((resetRing s r).rings r.ring_phys).hdr = { (s.rings r.ring_phys).hdr with
      head := 0, tail := 0, dropped := 0, running := 0 } := by
  unfold resetRing Machine.setRing
  dsimp only
  rw [Function.update_self]

theorem inUse_congr {s' : Machine} (h : s'.view = s.view) : s'.InUse r ↔ s.InUse r := by
  have hr : s'.px.ring = s.px.ring := congrArg (fun v => v.2.2.1) h
  have ha : s'.attachers = s.attachers := congrArg (fun v => v.2.2.2.2.1) h
  unfold Machine.InUse
  rw [hr, ha]

/-- The request waits for its second step. -/
theorem Inv.request (hi : Inv s) (hr : s.px.ring = none) (hnone : ∀ t, s.attachers t = none)
    (hlen : SNDSRV_DATA_OFFSET + 4096 ≤ r.ring_len) (t proc : ℕ) :
    Inv { s with attachers := Function.update s.attachers t (some (r, proc)) } := by
  have hsome : ∀ t' x, Function.update s.attachers t (some (r, proc)) t' = some x →
      t' = t ∧ x = (r, proc) := by
    intro t' x h
    by_cases he : t' = t
    · rw [he, Function.update_self] at h
      exact ⟨he, (Option.some.inj h).symm⟩
    · rw [Function.update_of_ne he, hnone t'] at h
      cases h
  have hne : ∀ t', Function.update s.attachers t (some (r, proc)) t' ≠ none → t' = t := by
    intro t' h
    obtain ⟨x, hx⟩ := Option.ne_none_iff_exists'.mp h
    exact (hsome t' x hx).1
  refine { hi with
    attaching := fun t' h => ⟨hr, fun t'' h' => (hne t'' h').trans (hne t' h).symm⟩
    large := fun r' h => ?_ }
  rcases h with h | ⟨t', proc', h⟩
  · exact absurd (hr.symm.trans h) (by simp)
  · have hx := (hsome t' _ h).2
    rw [Prod.mk.injEq] at hx
    rw [hx.1]
    exact hlen

theorem Inv.ring_none (hi : Inv s) (ha : s.px.attached = false) (hd : s.draining = 0) :
    s.px.ring = none := by
  by_contra h
  rcases hi.present h with ⟨h, -⟩ | ⟨-, h⟩
  · rw [ha] at h
    cases h
  · omega

theorem Inv.attachBegin (hi : Inv s) (hd : s.draining = 0) (hnone : ∀ t, s.attachers t = none)
    (t proc : ℕ) (req : SndsrvAttach) (now : UInt64) : Inv (attachBegin s t proc req now) := by
  unfold Sndproxy.attachBegin
  dsimp only
  split_ifs with _ ha hlen _ hchk
  · exact hi
  · exact hi
  · exact hi
  · exact hi
  all_goals
    have hring : s.px.ring = none := hi.ring_none (by simpa using ha) hd
    have hacc : Access.InBounds ⟨req.ring, true, 0, sizeofHdr⟩ := by
      refine ⟨rfl, ?_⟩
      unfold sizeofHdr
      unfold SNDSRV_DATA_OFFSET at hlen
      dsimp only
      omega
    have hi := hi.access _ hacc
  · exact hi
  · have hi : Inv (resetRing { s with accesses := _ :: s.accesses } req.ring) := hi.frame rfl rfl
    have hi := (hi.dropStale now).replay (r := req.ring) (by
      rw [dropStale_rings, resetRing_hdr]
      dsimp only
      omega)
    have hview := fun s => (replay_view _ req.ring).trans (dropStale_view (resetRing s req.ring) now)
    refine hi.request (Eq.trans (congrArg (fun v => v.2.2.1) (hview _)) ?_) (fun t => ?_) ?_ t proc
    · exact hring
    · refine Eq.trans (congrFun (congrArg (fun v => v.2.2.2.2.1) (hview _)) t) ?_
      exact hnone t
    · omega

theorem Inv.attachEnd (hi : Inv s) (t : ℕ) (registers : Bool) : Inv (attachEnd s t registers) := by
  unfold Sndproxy.attachEnd
  split
  · exact hi
  · rename_i r proc ht
    obtain ⟨hring, hone⟩ := hi.attaching t (by rw [ht]; exact Option.some_ne_none _)
    have hlen := hi.large r (.inr ⟨t, proc, ht⟩)
    obtain ⟨hatt, hd⟩ := hi.absent hring
    have hnone : ∀ t', Function.update s.attachers t none t' = none := by
      intro t'
      by_cases he : t' = t
      · rw [he, Function.update_self]
      · rw [Function.update_of_ne he]
        by_contra h
        exact he (hone t' h)
    have hidle : ∀ t', s.writers t' = .idle := by
      intro t'
      by_contra h
      exact hi.busy t' h hring
    have hcount : ∃ S : Finset ℕ, (∀ t, s.writers t ≠ .idle ↔ t ∈ S) ∧ (0 : ℤ) = S.card :=
      ⟨∅, fun t' => iff_of_false (fun h => h (hidle t')) (Finset.notMem_empty t'), rfl⟩
    have hholds : ∀ t' r', ¬ (s.writers t').Holds r' := by
      intro t' r' h
      rw [hidle t'] at h
      exact h
    dsimp only
    split_ifs with ha
    · rw [hatt] at ha
      cases ha
    · exact {
        inBounds := hi.inBounds
        counted := hcount
        holds := fun t' r' h => absurd h (hholds t' r')
        busy := fun t' h => absurd (hidle t') h
        present := fun _ => .inl ⟨rfl, hd⟩
        absent := fun h => by cases h
        attaching := fun t' h => absurd (hnone t') h
        large := fun r' h => by
          rcases h with h | ⟨t', proc', h⟩
          · rwa [← Option.some.inj h]
          · exact absurd ((hnone t').symm.trans h) (Option.some_ne_none _).symm }
    · exact {
        inBounds := hi.inBounds
        counted := hcount
        holds := fun t' r' h => absurd h (hholds t' r')
        busy := fun t' h => absurd (hidle t') h
        present := fun h => absurd rfl h
        absent := fun _ => ⟨rfl, hd⟩
        attaching := fun t' h => absurd (hnone t') h
        large := fun r' h => by
          rcases h with h | ⟨t', proc', h⟩
          · cases h
          · exact absurd ((hnone t').symm.trans h) (Option.some_ne_none _).symm }

theorem Inv.step (hi : Inv s) {a : Act} (hk : Kind s a) : Inv (step s a) := by
  unfold Sndproxy.step
  cases a with
  | writeEnter t buf =>
    dsimp only
    split
    · exact hi.writeEnter ‹_› buf
    · exact hi
  | writeCopy t =>
    dsimp only
    split
    · rename_i r buf ht
      exact hi.writeCopy ht (hk r buf ht).1
    · exact hi
  | writePublish t =>
    dsimp only
    split
    · exact hi.writePublish ‹_›
    · exact hi
  | writeLeave t =>
    dsimp only
    split
    · exact hi.writeLeave ‹_›
    · exact hi
  | detachBegin proc =>
    dsimp only
    split_ifs
    · exact hi.detachBegin
    · exact hi
  | detachEnd alloc now =>
    dsimp only
    split_ifs with h
    · exact hi.detachEnd alloc now h.1 h.2 hk.2
    · exact hi
  | attachBegin t proc req now => exact hi.attachBegin hk.1 hk.2 t proc req now
  | attachEnd t registers => exact hi.attachEnd t registers
  | consume n =>
    dsimp only
    unfold consume
    split
    · exact hi
    · dsimp only
      split_ifs
      · exact hi.frame rfl rfl
      · exact hi
  | storeHdr phys hdr => exact hi.frame rfl rfl
  | storeData phys i b => exact hi.frame rfl rfl

end Xeneva.Sndproxy
