import Xeneva.Net.Netproxy

/-!
# What the network proxy touches

Whatever a server stores in its rings, the proxy stays inside the slots of the attached ring, and a
poll ends. A detach waits for the writers that are counted in.
-/

namespace Xeneva.Netproxy
open Base

variable {s s' : Machine} {t t' : ℕ} {h : Option RingRef} {r : RingRef} {a : Act}

/-- The access lies in the buffer of the ring that was attached at the time. -/
def Access.InBounds (a : Access) : Prop :=
  a.own = true ∧ ∃ r, a.ring = some r ∧ a.off + a.len ≤ r.ring_len

def Safe (s : Machine) : Prop := ∀ a ∈ s.accesses, a.InBounds

/-- The steps that a poll has left at most. -/
def Poller.rank : Poller → ℕ
  | .idle => 0
  | .checked => 4 * NETSRV_SLOTS + 3
  | .loop _ budget => 4 * budget + 2
  | .body _ budget => 4 * budget + 5
  | .copied _ budget _ _ => 4 * budget + 4
  | .bad _ budget _ => 4 * budget + 3
  | .handle _ budget _ => 4 * budget + 3
  | .exiting => 1

def Act.isPoll (t : ℕ) : Act → Bool
  | .poll t' => t' = t
  | _ => false

/-- A poll that makes this many steps comes to its end, whatever happens between them. -/
def pollSteps : ℕ := 4 * NETSRV_SLOTS + 3

def PollsEnd (s : Machine) : Prop :=
  ∀ t as, pollSteps ≤ as.countP (Act.isPoll t) → ∃ bs, bs <+: as ∧ (run step s bs).pollers t = .idle

/-- The thread is between a read of `inflight` and the store of the new count. -/
def Writer.Counts : Writer → Prop
  | .counting .. => True
  | .uncounting _ => True
  | _ => False

/-- The writer is between the copy of its frame and the store of `tx_head`. -/
def Writer.Fills : Writer → Prop
  | .filled .. => True
  | _ => False

/-- The poll does not use a ring. -/
def Poller.Out : Poller → Prop
  | .idle => True
  | .checked => True
  | .exiting => True
  | _ => False

instance : ∀ w : Writer, Decidable w.Counts
  | .counting .. | .uncounting _ => inferInstanceAs (Decidable True)
  | .idle | .inside _ | .filled .. | .leaving => inferInstanceAs (Decidable False)

/-- No two threads are counted, or fill a slot, at once; a frame fits into a slot; no poll makes its
first test while another has passed it; a detach waits to the end and comes between polls; an attach
comes alone, when no frame is sent and no poll uses a ring. -/
def Kind (s : Machine) : Act → Prop
  | .write t buffer => match s.writers t with
    | .idle => s.attached → buffer.length ≤ NETSRV_MAX_FRAME ∧ ∀ t', ¬(s.writers t').Counts
    | .inside _ => ∀ t', ¬(s.writers t').Fills
    | .leaving => ∀ t', ¬(s.writers t').Counts
    | _ => True
  | .poll t => s.pollers t = .idle → ∀ t', s.pollers t' ≠ .checked
  | .attachBegin .. => s.draining = 0 ∧ ∀ t, s.attachers t = none
  | .attachEnd t => s.attachers t ≠ none →
    (∀ t', s.writers t' = .idle) ∧ ∀ t', (s.pollers t').Out
  | .detachEnd _ => s.inflight ≤ 0 ∧ ∀ t, (s.pollers t).Out
  | _ => True

/-- The writer is counted in. -/
def Writer.Counted : Writer → Prop
  | .inside _ => True
  | .filled .. => True
  | .leaving => True
  | .uncounting _ => True
  | _ => False

/-- The ring that the thread took when it could. -/
def Writer.ring : Writer → Option (Option RingRef)
  | .filled h _ _ => some h
  | _ => none

/-- The count that the thread read. -/
def Writer.count : Writer → Option ℤ
  | .counting _ n => some n
  | .uncounting n => some n
  | _ => none

/-- The frame that a thread sends fits into a slot. -/
def Writer.frame : Writer → Option Frame
  | .counting buffer _ => some buffer
  | .inside buffer => some buffer
  | .filled _ _ frame => some frame
  | _ => none

def Poller.ring : Poller → Option (Option RingRef)
  | .loop h _ => some h
  | .body h _ => some h
  | .copied h _ _ _ => some h
  | .bad h _ _ => some h
  | .handle h _ _ => some h
  | _ => none

/-- The poll has passed the test of its loop. -/
def Poller.Inside : Poller → Prop
  | .body .. => True
  | .copied .. => True
  | .bad .. => True
  | .handle .. => True
  | _ => False

/-- The poll has set `in_poll`. -/
def Poller.Flagged : Poller → Prop
  | .idle => False
  | .checked => False
  | _ => True

structure WritersInv (s : Machine) : Prop where
  counted : ∃ S : Finset ℕ, (∀ t, (s.writers t).Counted ↔ t ∈ S) ∧ s.inflight = S.card
  count : ∀ t n, (s.writers t).count = some n → n = s.inflight
  alone : ∀ t t', (s.writers t).Counts → (s.writers t').Counts → t = t'
  ring : ∀ t h, (s.writers t).ring = some h → h = s.hdr ∧ s.hdr ≠ none
  frame : ∀ t f, (s.writers t).frame = some f → f.length ≤ NETSRV_MAX_FRAME
  fills : ∀ t t', (s.writers t).Fills → (s.writers t').Fills → t = t'

structure PollersInv (s : Machine) : Prop where
  alone : ∀ t t', s.pollers t ≠ .idle → s.pollers t' ≠ .idle → t = t'
  flag : ∀ t, (s.pollers t).Flagged → s.in_poll = true
  ring : ∀ t h, (s.pollers t).ring = some h → h = s.hdr
  inside : ∀ t, (s.pollers t).Inside → s.hdr ≠ none
  rank : ∀ t, (s.pollers t).rank ≤ pollSteps

structure RingInv (s : Machine) : Prop where
  present : s.hdr ≠ none → s.attached = true ∧ s.draining = 0 ∨ s.attached = false ∧ s.draining = 1
  absent : s.hdr = none → s.attached = false ∧ s.draining = 0
  attaching : ∀ t, s.attachers t ≠ none → s.hdr = none ∧ ∀ t', s.attachers t' ≠ none → t' = t
  large : ∀ r, (s.hdr = some r ∨ ∃ t proc, s.attachers t = some (r, proc)) →
    NETSRV_RING_BYTES ≤ r.ring_len

/-- The threads are where they should be. -/
structure Inv (s : Machine) : Prop where
  safe : Safe s
  writers : WritersInv s
  pollers : PollersInv s
  rings : RingInv s

/-! ## Writers -/

theorem Writer.counts_of_count {w : Writer} {n : ℤ} (h : w.count = some n) : w.Counts := by
  cases w with
  | counting buffer m => trivial
  | uncounting m => trivial
  | _ => cases h

theorem WritersInv.congr (hi : WritersInv s) (hw : s'.writers = s.writers)
    (hn : s'.inflight = s.inflight) (hh : s'.hdr = s.hdr) : WritersInv s' := by
  obtain ⟨h1, h2, h3, h4, h5, h6⟩ := hi
  rw [← hw, ← hn] at h1 h2
  rw [← hw] at h3 h5 h6
  rw [← hw, ← hh] at h4
  exact ⟨h1, h2, h3, h4, h5, h6⟩

/-- A thread that stays counted in, or stays out. -/
theorem WritersInv.setWriter (hi : WritersInv s) {w : Writer}
    (hc : w.Counted ↔ (s.writers t).Counted) (hn : ∀ n, w.count = some n → n = s.inflight)
    (ha : w.Counts → ∀ t', ¬(s.writers t').Counts)
    (hr : ∀ h, w.ring = some h → h = s.hdr ∧ s.hdr ≠ none)
    (hf : ∀ f, w.frame = some f → f.length ≤ NETSRV_MAX_FRAME)
    (hfills : w.Fills → ∀ t', ¬(s.writers t').Fills) : WritersInv (s.setWriter t w) := by
  have hself : (s.setWriter t w).writers t = w := Function.update_self ..
  have hne : ∀ t', t' ≠ t → (s.setWriter t w).writers t' = s.writers t' := fun t' hne =>
    Function.update_of_ne hne ..
  constructor
  · obtain ⟨S, hS, hcard⟩ := hi.counted
    refine ⟨S, fun t' => ?_, hcard⟩
    by_cases he : t' = t
    · rw [he, hself, ← hS t]
      exact hc
    · rw [hne t' he]
      exact hS t'
  · intro t' n h
    by_cases he : t' = t
    · rw [he, hself] at h
      exact hn n h
    · rw [hne t' he] at h
      exact hi.count t' n h
  · intro t₁ t₂ h₁ h₂
    by_cases he₁ : t₁ = t
    · by_cases he₂ : t₂ = t
      · rw [he₁, he₂]
      · rw [he₁, hself] at h₁
        rw [hne t₂ he₂] at h₂
        exact absurd h₂ (ha h₁ t₂)
    · by_cases he₂ : t₂ = t
      · rw [he₂, hself] at h₂
        rw [hne t₁ he₁] at h₁
        exact absurd h₁ (ha h₂ t₁)
      · rw [hne t₁ he₁] at h₁
        rw [hne t₂ he₂] at h₂
        exact hi.alone t₁ t₂ h₁ h₂
  · intro t' h hring
    by_cases he : t' = t
    · rw [he, hself] at hring
      exact hr h hring
    · rw [hne t' he] at hring
      exact hi.ring t' h hring
  · intro t' f hframe
    by_cases he : t' = t
    · rw [he, hself] at hframe
      exact hf f hframe
    · rw [hne t' he] at hframe
      exact hi.frame t' f hframe
  · intro t₁ t₂ h₁ h₂
    by_cases he₁ : t₁ = t
    · by_cases he₂ : t₂ = t
      · rw [he₁, he₂]
      · rw [he₁, hself] at h₁
        rw [hne t₂ he₂] at h₂
        exact absurd h₂ (hfills h₁ t₂)
    · by_cases he₂ : t₂ = t
      · rw [he₂, hself] at h₂
        rw [hne t₁ he₁] at h₁
        exact absurd h₁ (hfills h₂ t₁)
      · rw [hne t₁ he₁] at h₁
        rw [hne t₂ he₂] at h₂
        exact hi.fills t₁ t₂ h₁ h₂

/-- The count is stored, and no thread is left that has read it. -/
theorem WritersInv.store (hi : WritersInv s) (ht : (s.writers t).Counts) {w : Writer} {k : ℤ}
    (hw : ¬w.Counts ∧ ¬w.Fills) (hr : w.ring = none)
    (hf : ∀ f, w.frame = some f → (s.writers t).frame = some f)
    (hk : ∀ S : Finset ℕ, ((s.writers t).Counted ↔ t ∈ S) → s.inflight = S.card →
      ∃ S' : Finset ℕ, (∀ t', t' ∈ S' ↔ if t' = t then w.Counted else t' ∈ S) ∧ k = S'.card) :
    WritersInv ({ s with inflight := k }.setWriter t w) := by
  have hself : Function.update s.writers t w t = w := Function.update_self ..
  have hne : ∀ t', t' ≠ t → Function.update s.writers t w t' = s.writers t' := fun t' hne =>
    Function.update_of_ne hne ..
  have hnone : ∀ t', ¬(Function.update s.writers t w t').Counts := by
    intro t' hc
    by_cases he : t' = t
    · rw [he, hself] at hc
      exact hw.1 hc
    · rw [hne t' he] at hc
      exact he (hi.alone t' t hc ht)
  constructor
  · obtain ⟨S, hS, hcard⟩ := hi.counted
    obtain ⟨S', hS', hcard'⟩ := hk S (hS t) hcard
    refine ⟨S', fun t' => ?_, hcard'⟩
    unfold Machine.setWriter
    dsimp only
    rw [hS' t']
    by_cases he : t' = t
    · rw [he, hself, if_pos rfl]
    · rw [hne t' he, if_neg he]
      exact hS t'
  · intro t' n h
    exact absurd (Writer.counts_of_count h) (hnone t')
  · intro t₁ t₂ h₁ _
    exact absurd h₁ (hnone t₁)
  · intro t' h hring
    unfold Machine.setWriter at hring
    dsimp only at hring
    by_cases he : t' = t
    · rw [he, hself, hr] at hring
      cases hring
    · rw [hne t' he] at hring
      exact hi.ring t' h hring
  · intro t' f hframe
    unfold Machine.setWriter at hframe
    dsimp only at hframe
    by_cases he : t' = t
    · rw [he, hself] at hframe
      exact hi.frame t f (hf f hframe)
    · rw [hne t' he] at hframe
      exact hi.frame t' f hframe
  · have hold : ∀ t', (Function.update s.writers t w t').Fills → (s.writers t').Fills := by
      intro t' h
      by_cases he : t' = t
      · rw [he, hself] at h
        exact absurd h hw.2
      · rwa [hne t' he] at h
    exact fun t₁ t₂ h₁ h₂ => hi.fills t₁ t₂ (hold t₁ h₁) (hold t₂ h₂)

theorem card_insert_counted {S : Finset ℕ} {n : ℤ} (hn : n = S.card) (ht : t ∉ S) :
    ∃ S' : Finset ℕ, (∀ t', t' ∈ S' ↔ if t' = t then True else t' ∈ S) ∧ n + 1 = S'.card := by
  refine ⟨insert t S, fun t' => ?_, ?_⟩
  · rw [Finset.mem_insert]
    split_ifs with he
    · exact iff_true_intro (.inl he)
    · exact or_iff_right he
  · rw [Finset.card_insert_of_notMem ht, hn]
    push_cast
    rfl

theorem card_erase_counted {S : Finset ℕ} {n : ℤ} (hn : n = S.card) (ht : t ∈ S) :
    ∃ S' : Finset ℕ, (∀ t', t' ∈ S' ↔ if t' = t then False else t' ∈ S) ∧ n - 1 = S'.card := by
  refine ⟨S.erase t, fun t' => ?_, ?_⟩
  · rw [Finset.mem_erase]
    split_ifs with he
    · exact iff_false_intro fun h => h.1 he
    · exact and_iff_right he
  · rw [Finset.card_erase_of_mem ht, hn]
    have hpos := Finset.card_pos.mpr ⟨t, ht⟩
    omega

theorem WritersInv.leave (hi : WritersInv s) (ht : (s.writers t).Counted) :
    WritersInv (s.setWriter t .leaving) := by
  apply hi.setWriter
  · exact iff_of_true trivial ht
  · intro n hn
    cases hn
  · exact fun h => h.elim
  · intro h hr
    cases hr
  · intro f hf
    cases hf
  · exact fun h => h.elim

theorem WritersInv.fill (hi : WritersInv s) {buffer : Frame} (ht : s.writers t = .inside buffer)
    (hh : h = s.hdr) (hne : s.hdr ≠ none) (hfills : ∀ t', ¬(s.writers t').Fills)
    (head : BitVec 32) :
    WritersInv (s.setWriter t (.filled h head buffer)) := by
  apply hi.setWriter
  · rw [ht]
    exact Iff.rfl
  · intro n hn
    cases hn
  · exact fun h => h.elim
  · intro h' hr
    rw [← Option.some.inj hr, hh]
    exact ⟨rfl, hne⟩
  · intro f hf
    apply hi.frame t f
    rw [ht]
    exact hf
  · exact fun _ => hfills

theorem RingInv.hdr_ne (hr : RingInv s) (ha : s.attached = true) : s.hdr ≠ none := by
  intro hn
  rw [(hr.absent hn).1] at ha
  cases ha

theorem RingInv.hdr_none (hr : RingInv s) (ha : s.attached = false) (hd : s.draining = 0) :
    s.hdr = none := by
  by_contra hne
  rcases hr.present hne with ⟨h, -⟩ | ⟨-, h⟩
  · rw [ha] at h
    cases h
  · rw [hd] at h
    cases h

theorem WritersInv.write (hi : WritersInv s) (hr : RingInv s) {buffer : Frame}
    (hk : Kind s (.write t buffer)) : WritersInv (npWrite s t buffer) := by
  unfold npWrite
  unfold Kind at hk
  dsimp only at hk
  cases hw : s.writers t with
  | idle =>
    rw [hw] at hk
    dsimp only at hk ⊢
    unfold npWriteEnter
    split_ifs with hgo
    · exact hi
    rw [not_or] at hgo
    obtain ⟨hlen, hnone⟩ := hk (by simpa using hgo.1)
    apply hi.setWriter
    · rw [hw]
      exact Iff.rfl
    · intro n hn
      exact (Option.some.inj hn).symm
    · exact fun _ => hnone
    · intro h hr
      cases hr
    · intro f hf
      rw [← Option.some.inj hf]
      exact hlen
    · exact fun h => h.elim
  | counting buffer' n =>
    have hn := hi.count t n (by rw [hw]; rfl)
    apply hi.store
    · rw [hw]
      trivial
    · exact ⟨not_false, not_false⟩
    · rfl
    · intro f hf
      rw [hw]
      exact hf
    · intro S hS hcard
      rw [hw] at hS
      exact card_insert_counted (hn.trans hcard) fun h => hS.mpr h
  | inside buffer' =>
    rw [hw] at hk
    have hc : (s.writers t).Counted := by
      rw [hw]
      trivial
    dsimp only
    unfold npWriteFill
    dsimp only
    split_ifs with hgo
    · exact hi.leave hc
    · refine WritersInv.leave (hi.congr ?_ ?_ ?_) hc <;> rfl
    · have hne : s.hdr ≠ none := hr.hdr_ne (by simpa using hgo)
      refine WritersInv.fill (hi.congr ?_ ?_ ?_) ?_ ?_ ?_ ?_ _
      · rfl
      · rfl
      · rfl
      · exact hw
      · rfl
      · exact hne
      · exact hk
  | filled h head frame =>
    dsimp only
    unfold npWritePublish
    have hc : (s.writers t).Counted := by
      rw [hw]
      trivial
    refine WritersInv.leave (hi.congr ?_ ?_ ?_) hc <;> rfl
  | leaving =>
    rw [hw] at hk
    apply hi.setWriter
    · rw [hw]
      exact Iff.rfl
    · intro n hn
      exact (Option.some.inj hn).symm
    · exact fun _ => hk
    · intro h hr
      cases hr
    · intro f hf
      cases hf
    · exact fun h => h.elim
  | uncounting n =>
    have hn := hi.count t n (by rw [hw]; rfl)
    apply hi.store
    · rw [hw]
      trivial
    · exact ⟨not_false, not_false⟩
    · rfl
    · intro f hf
      cases hf
    · intro S hS hcard
      rw [hw] at hS
      exact card_erase_counted (hn.trans hcard) (hS.mp trivial)

/-! ## Polls -/

theorem PollersInv.congr (hi : PollersInv s) (hp : s'.pollers = s.pollers)
    (hf : s'.in_poll = s.in_poll) (hh : s'.hdr = s.hdr) : PollersInv s' := by
  obtain ⟨h1, h2, h3, h4, h5⟩ := hi
  rw [← hp] at h1 h5
  rw [← hp, ← hf] at h2
  rw [← hp, ← hh] at h3 h4
  exact ⟨h1, h2, h3, h4, h5⟩

/-- The one poll that is under way goes on. -/
theorem pollersInv_set {p : Poller} (flag : Bool)
    (halone : ∀ t', t' ≠ t → s.pollers t' = .idle) (hf : p.Flagged → flag = true)
    (hr : ∀ h, p.ring = some h → h = s.hdr) (hin : p.Inside → s.hdr ≠ none)
    (hrank : p.rank ≤ pollSteps) : PollersInv ({ s with in_poll := flag }.setPoller t p) := by
  have hself : Function.update s.pollers t p t = p := Function.update_self ..
  have hne : ∀ t', t' ≠ t → Function.update s.pollers t p t' = .idle := by
    intro t' hne
    rw [Function.update_of_ne hne]
    exact halone t' hne
  constructor
  · intro t₁ t₂ h₁ h₂
    unfold Machine.setPoller at h₁ h₂
    dsimp only at h₁ h₂
    have heq : ∀ t', Function.update s.pollers t p t' ≠ .idle → t' = t := by
      intro t' h
      by_contra he
      exact h (hne t' he)
    rw [heq t₁ h₁, heq t₂ h₂]
  · intro t' h
    unfold Machine.setPoller at h
    dsimp only at h
    by_cases he : t' = t
    · rw [he, hself] at h
      exact hf h
    · rw [hne t' he] at h
      exact h.elim
  · intro t' h hring
    unfold Machine.setPoller at hring
    dsimp only at hring
    by_cases he : t' = t
    · rw [he, hself] at hring
      exact hr h hring
    · rw [hne t' he] at hring
      cases hring
  · intro t' h
    unfold Machine.setPoller at h
    dsimp only at h
    by_cases he : t' = t
    · rw [he, hself] at h
      exact hin h
    · rw [hne t' he] at h
      exact h.elim
  · intro t'
    unfold Machine.setPoller
    dsimp only
    by_cases he : t' = t
    · rw [he, hself]
      exact hrank
    · rw [hne t' he]
      exact Nat.zero_le _

theorem PollersInv.others (hi : PollersInv s) (ht : s.pollers t ≠ .idle) :
    ∀ t', t' ≠ t → s.pollers t' = .idle := by
  intro t' hne
  by_contra h
  exact hne (hi.alone t' t h ht)

/-- A poll that has set `in_poll` goes on with its ring, or without one. -/
theorem PollersInv.next (hi : PollersInv s) {p q : Poller} (hp : s.pollers t = p) (ht : p.Flagged)
    (h₁ : s'.pollers = s.pollers) (h₂ : s'.in_poll = s.in_poll) (h₃ : s'.hdr = s.hdr)
    (hr : ∀ h, q.ring = some h → p.ring = some h) (hin : q.Inside → s.hdr ≠ none)
    (hrank : q.rank ≤ p.rank) : PollersInv (s'.setPoller t q) := by
  have hi' := hi.congr h₁ h₂ h₃
  rw [← h₁] at hp
  have hne : s'.pollers t ≠ .idle := by
    intro h
    rw [hp.symm.trans h] at ht
    exact ht
  have hflag := hi'.flag t
  have hring := hi'.ring t
  have hbound := hi'.rank t
  rw [hp] at hflag hring hbound
  rw [← h₃] at hin
  exact pollersInv_set s'.in_poll (hi'.others hne) (fun _ => hflag ht)
    (fun h h' => hring h (hr h h')) hin (hrank.trans hbound)

/-- Where no poll has set `in_poll` or is about to, none is under way. -/
theorem PollersInv.none (hi : PollersInv s) (hk : ∀ t', s.pollers t' ≠ .checked)
    (hf : s.in_poll = false) : ∀ t', s.pollers t' = .idle := by
  intro t'
  have hchecked := hk t'
  have hflagged := hi.flag t'
  rw [hf] at hflagged
  cases hp : s.pollers t' with
  | idle => rfl
  | checked => exact absurd hp hchecked
  | _ =>
    rw [hp] at hflagged
    exact absurd (hflagged trivial) (by decide)

theorem PollersInv.poll (hi : PollersInv s) (hr : RingInv s) (hk : Kind s (.poll t)) :
    PollersInv (npRxpoll s t) := by
  unfold npRxpoll
  unfold Kind at hk
  dsimp only at hk
  have hinside := hi.inside t
  have hothers := hi.others (t := t)
  cases hp : s.pollers t with
  | idle =>
    dsimp only
    split_ifs with hgo
    · exact hi
    rw [not_or] at hgo
    have hnone := hi.none (hk hp) (Bool.eq_false_of_not_eq_true hgo.1)
    exact pollersInv_set s.in_poll (fun t' _ => hnone t') (fun h => h.elim) (fun h h' => by cases h')
      (fun h => h.elim) (Nat.le_refl _)
  | checked =>
    rw [hp] at hothers
    exact pollersInv_set true (hothers (by simp)) (fun _ => rfl)
      (fun h h' => (Option.some.inj h').symm) (fun h => h.elim) (Nat.le_succ _)
  | loop h budget =>
    dsimp only
    split_ifs with hgo
    · refine hi.next hp trivial (by rfl) (by rfl) (by rfl) (fun h h' => h') (fun _ hnone => ?_) ?_
      · exact hr.hdr_ne hgo.1 hnone
      · dsimp only [Poller.rank]
        omega
    · refine hi.next hp trivial (by rfl) (by rfl) (by rfl) (fun h h' => by cases h')
        (fun h => h.elim) ?_
      dsimp only [Poller.rank]
      omega
  | body h budget =>
    rw [hp] at hinside
    dsimp only
    unfold npRxRead
    dsimp only
    split_ifs
    · refine hi.next hp trivial (by rfl) (by rfl) (by rfl) (fun h h' => by cases h')
        (fun h => h.elim) ?_
      dsimp only [Poller.rank]
      omega
    · exact hi.next hp trivial (by rfl) (by rfl) (by rfl) (fun h h' => h') (fun _ => hinside trivial)
        (Nat.le_succ _)
    · refine hi.next hp trivial (by rfl) (by rfl) (by rfl) (fun h h' => h')
        (fun _ => hinside trivial) ?_
      dsimp only [Poller.rank]
      omega
  | copied h budget tail len =>
    rw [hp] at hinside
    exact hi.next hp trivial (by rfl) (by rfl) (by rfl) (fun h h' => h') (fun _ => hinside trivial)
      (Nat.le_succ _)
  | bad h budget tail =>
    exact hi.next hp trivial (by rfl) (by rfl) (by rfl) (fun h h' => h') (fun h => h.elim)
      (Nat.le_succ _)
  | handle h budget len =>
    exact hi.next hp trivial (by rfl) (by rfl) (by rfl) (fun h h' => h') (fun h => h.elim)
      (Nat.le_succ _)
  | exiting =>
    rw [hp] at hothers
    exact pollersInv_set false (hothers (by simp)) (fun h => h.elim) (fun h h' => by cases h')
      (fun h => h.elim) (Nat.zero_le _)

/-! ## Accesses -/

theorem slotOf_eq (i : BitVec 32) : slotOf i = i.toNat % NETSRV_SLOTS := by
  unfold slotOf
  rw [BitVec.toNat_and]
  exact Nat.and_two_pow_sub_one_eq_mod i.toNat 5

theorem slotOf_lt (i : BitVec 32) : slotOf i < NETSRV_SLOTS := by
  rw [slotOf_eq]
  exact Nat.mod_lt _ (by decide)

theorem Safe.touch (hs : Safe s) (hr : RingInv s) (hh : h = s.hdr) (hne : s.hdr ≠ none) {off len : ℕ}
    (hlen : off + len ≤ NETSRV_RING_BYTES) : Safe (s.touch h off len) := by
  obtain ⟨r, hsome⟩ := Option.ne_none_iff_exists'.mp hne
  intro a ha
  rcases List.mem_cons.mp ha with rfl | ha
  · refine ⟨?_, r, hh.trans hsome, hlen.trans (hr.large r (.inl hsome))⟩
    rw [hh, hsome]
    simp
  · exact hs a ha

theorem Safe.touchHdr (hs : Safe s) (hr : RingInv s) (hh : h = s.hdr) (hne : s.hdr ≠ none) :
    Safe (s.touch h 0 sizeofHdr) := hs.touch hr hh hne (by decide)

theorem RingInv.congr (hr : RingInv s) (hh : s'.hdr = s.hdr) (ha : s'.attached = s.attached)
    (hd : s'.draining = s.draining) (hat : s'.attachers = s.attachers) : RingInv s' := by
  obtain ⟨h1, h2, h3, h4⟩ := hr
  rw [← hh, ← ha, ← hd] at h1 h2
  rw [← hat, ← hh] at h3 h4
  exact ⟨h1, h2, h3, h4⟩

theorem tx_inBounds (head : BitVec 32) {n : ℕ} (hn : n ≤ NETSRV_MAX_FRAME) :
    NETSRV_TX_OFFSET + slotOf head * NETSRV_SLOT_SIZE + (NETSRV_SLOT_HDR + n) ≤
      NETSRV_RING_BYTES := by
  have hlt := slotOf_lt head
  unfold NETSRV_MAX_FRAME NETSRV_SLOT_SIZE NETSRV_SLOT_HDR at hn
  unfold NETSRV_RING_BYTES NETSRV_RX_OFFSET NETSRV_TX_OFFSET NETSRV_SLOT_HDR NETSRV_SLOT_SIZE
  unfold NETSRV_SLOTS at hlt ⊢
  omega

theorem rx_inBounds (tail : BitVec 32) {n : ℕ} (hn : n ≤ NETSRV_MAX_FRAME) :
    NETSRV_RX_OFFSET + slotOf tail * NETSRV_SLOT_SIZE + NETSRV_SLOT_HDR + n ≤
      NETSRV_RING_BYTES := by
  have hlt := slotOf_lt tail
  unfold NETSRV_MAX_FRAME NETSRV_SLOT_SIZE NETSRV_SLOT_HDR at hn
  unfold NETSRV_RING_BYTES NETSRV_RX_OFFSET NETSRV_TX_OFFSET NETSRV_SLOT_HDR NETSRV_SLOT_SIZE
  unfold NETSRV_SLOTS at hlt ⊢
  omega

theorem Safe.write (hi : Inv s) (t : ℕ) (buffer : Frame) : Safe (npWrite s t buffer) := by
  have hring := hi.writers.ring t
  unfold npWrite
  cases hw : s.writers t with
  | idle =>
    dsimp only
    unfold npWriteEnter
    split_ifs <;> exact hi.safe
  | inside buffer' =>
    dsimp only
    unfold npWriteFill
    dsimp only
    split_ifs with hgo
    · exact hi.safe
    all_goals
      have hne : s.hdr ≠ none := hi.rings.hdr_ne (by simpa using hgo)
      have hsafe := hi.safe.touchHdr hi.rings rfl hne
    · exact hsafe
    · have hr : RingInv (s.touch s.hdr 0 sizeofHdr) := hi.rings.congr rfl rfl rfl rfl
      exact hsafe.touch hr rfl hne (tx_inBounds _ (List.length_take_le _ _))
  | filled h head frame =>
    rw [hw] at hring
    obtain ⟨hh, hne⟩ := hring h rfl
    exact hi.safe.touchHdr hi.rings hh hne
  | counting buffer' n => exact hi.safe
  | leaving => exact hi.safe
  | uncounting n => exact hi.safe

theorem Safe.poll (hi : Inv s) (t : ℕ) : Safe (npRxpoll s t) := by
  have hring := hi.pollers.ring t
  have hinside := hi.pollers.inside t
  unfold npRxpoll
  cases hp : s.pollers t with
  | idle =>
    dsimp only
    split_ifs <;> exact hi.safe
  | loop h budget =>
    dsimp only
    split_ifs <;> exact hi.safe
  | body h budget =>
    rw [hp] at hring hinside
    have hh := hring h rfl
    have hne := hinside trivial
    have hsafe := hi.safe.touchHdr hi.rings hh hne
    have hr : RingInv (s.touch h 0 sizeofHdr) := hi.rings.congr rfl rfl rfl rfl
    dsimp only
    unfold npRxRead
    dsimp only
    split_ifs with hempty hlen
    · exact hsafe
    · have hfirst := rx_inBounds (s.ring h).hdr.rx_tail hlen.2
      have hsafe' : Safe ((s.touch h 0 sizeofHdr).touch h (NETSRV_RX_OFFSET +
          slotOf (s.ring h).hdr.rx_tail * NETSRV_SLOT_SIZE) 4) := hsafe.touch hr hh hne (by omega)
      exact hsafe'.touch (hr.congr rfl rfl rfl rfl) hh hne hfirst
    · have hfirst := rx_inBounds (s.ring h).hdr.rx_tail (Nat.zero_le NETSRV_MAX_FRAME)
      exact hsafe.touch hr hh hne (by unfold NETSRV_SLOT_HDR at hfirst; omega)
  | copied h budget tail len =>
    rw [hp] at hring hinside
    exact hi.safe.touchHdr hi.rings (hring h rfl) (hinside trivial)
  | bad h budget tail =>
    rw [hp] at hring hinside
    exact hi.safe.touchHdr hi.rings (hring h rfl) (hinside trivial)
  | checked => exact hi.safe
  | handle h budget len => exact hi.safe
  | exiting => exact hi.safe

/-! ## Every step -/

/-- The threads and the attachment stay as they are. -/
theorem Inv.congr (hi : Inv s) (hacc : s'.accesses = s.accesses) (hw : s'.writers = s.writers)
    (hn : s'.inflight = s.inflight) (hp : s'.pollers = s.pollers) (hf : s'.in_poll = s.in_poll)
    (hh : s'.hdr = s.hdr) (ha : s'.attached = s.attached) (hd : s'.draining = s.draining)
    (hat : s'.attachers = s.attachers) : Inv s' where
  safe := by
    unfold Safe
    rw [hacc]
    exact hi.safe
  writers := hi.writers.congr hw hn hh
  pollers := hi.pollers.congr hp hf hh
  rings := hi.rings.congr hh ha hd hat

theorem npWrite_rings (hr : RingInv s) (t : ℕ) (buffer : Frame) : RingInv (npWrite s t buffer) := by
  unfold npWrite
  split
  · unfold npWriteEnter
    split_ifs <;> exact hr.congr (by rfl) (by rfl) (by rfl) (by rfl)
  · exact hr.congr (by rfl) (by rfl) (by rfl) (by rfl)
  · unfold npWriteFill
    dsimp only
    split_ifs <;> exact hr.congr (by rfl) (by rfl) (by rfl) (by rfl)
  all_goals exact hr.congr (by rfl) (by rfl) (by rfl) (by rfl)

theorem npWrite_pollers (hi : PollersInv s) (t : ℕ) (buffer : Frame) :
    PollersInv (npWrite s t buffer) := by
  unfold npWrite
  split
  · unfold npWriteEnter
    split_ifs <;> exact hi.congr (by rfl) (by rfl) (by rfl)
  · exact hi.congr (by rfl) (by rfl) (by rfl)
  · unfold npWriteFill
    dsimp only
    split_ifs <;> exact hi.congr (by rfl) (by rfl) (by rfl)
  all_goals exact hi.congr (by rfl) (by rfl) (by rfl)

theorem npRxpoll_rings (hr : RingInv s) (t : ℕ) : RingInv (npRxpoll s t) := by
  unfold npRxpoll
  split
  · split_ifs <;> exact hr.congr (by rfl) (by rfl) (by rfl) (by rfl)
  · exact hr.congr (by rfl) (by rfl) (by rfl) (by rfl)
  · split_ifs <;> exact hr.congr (by rfl) (by rfl) (by rfl) (by rfl)
  · unfold npRxRead
    dsimp only
    split_ifs <;> exact hr.congr (by rfl) (by rfl) (by rfl) (by rfl)
  all_goals exact hr.congr (by rfl) (by rfl) (by rfl) (by rfl)

theorem npRxpoll_writers (hi : WritersInv s) (t : ℕ) : WritersInv (npRxpoll s t) := by
  unfold npRxpoll
  split
  · split_ifs <;> exact hi.congr (by rfl) (by rfl) (by rfl)
  · exact hi.congr (by rfl) (by rfl) (by rfl)
  · split_ifs <;> exact hi.congr (by rfl) (by rfl) (by rfl)
  · unfold npRxRead
    dsimp only
    split_ifs <;> exact hi.congr (by rfl) (by rfl) (by rfl)
  all_goals exact hi.congr (by rfl) (by rfl) (by rfl)

theorem Inv.attachBegin (hi : Inv s) {proc : ℕ} {req : NetsrvAttach}
    (hk : Kind s (.attachBegin t proc req)) : Inv (Netproxy.attachBegin s t proc req) := by
  unfold Netproxy.attachBegin
  dsimp only
  split_ifs with hallowed hatt hlen howns hmagic
  · exact hi
  · exact hi
  · exact hi
  · exact hi
  · exact hi
  have hatt : s.attached = false := Bool.eq_false_of_not_eq_true hatt
  have hnone : s.hdr = none := hi.rings.hdr_none hatt hk.1
  refine ⟨hi.safe, hi.writers.congr rfl rfl rfl, hi.pollers.congr rfl rfl rfl,
    hi.rings.present, hi.rings.absent, ?_, ?_⟩
  · have hone : ∀ t', Function.update s.attachers t
        (some (⟨req.ring_phys, req.ring_len, s.gens⟩, proc)) t' ≠ none → t' = t := by
      intro t' h
      by_contra he
      rw [Function.update_of_ne he] at h
      exact h (hk.2 t')
    intro t' h
    refine ⟨hnone, fun t'' h' => ?_⟩
    rw [hone t' h, hone t'' h']
  · intro r hr
    rcases hr with hr | ⟨t', proc', hr⟩
    · exact hi.rings.large r (.inl hr)
    · dsimp only at hr
      by_cases he : t' = t
      · rw [he, Function.update_self] at hr
        cases hr
        dsimp only
        omega
      · rw [Function.update_of_ne he, hk.2 t'] at hr
        cases hr

theorem Inv.attachEnd (hi : Inv s) (hk : Kind s (.attachEnd t)) : Inv (Netproxy.attachEnd s t) := by
  unfold Netproxy.attachEnd
  unfold Kind at hk
  dsimp only at hk
  cases hat : s.attachers t with
  | none => exact hi
  | some p =>
    obtain ⟨r, proc⟩ := p
    obtain ⟨hidle, hout⟩ := hk (by rw [hat]; simp)
    obtain ⟨hnone, hone⟩ := hi.rings.attaching t (by rw [hat]; simp)
    obtain ⟨-, hdrain⟩ := hi.rings.absent hnone
    have hgone : ∀ t', Function.update s.attachers t none t' = none := by
      intro t'
      by_cases he : t' = t
      · rw [he, Function.update_self]
      · rw [Function.update_of_ne he]
        by_contra h
        exact he (hone t' h)
    refine ⟨hi.safe, ?_, ?_, ?_⟩
    · constructor
      · refine ⟨∅, fun t' => ?_, rfl⟩
        dsimp only
        rw [hidle t']
        simp [Writer.Counted]
      all_goals
        dsimp only
        intro t'
        rw [hidle t']
      · intro n h
        cases h
      · intro t'' h
        exact h.elim
      · intro h h'
        cases h'
      · intro f h
        cases h
      · intro t'' h
        exact h.elim
    · have hring : ∀ t' h, (s.pollers t').ring ≠ some h := by
        intro t' h h'
        have ho := hout t'
        cases hp : s.pollers t' with
        | idle | checked | exiting => rw [hp] at h'; cases h'
        | _ => rw [hp] at ho; exact ho
      have hinside : ∀ t', ¬(s.pollers t').Inside := by
        intro t' h
        have ho := hout t'
        cases hp : s.pollers t' with
        | idle | checked | exiting => rw [hp] at h; exact h
        | _ => rw [hp] at ho; exact ho
      exact ⟨hi.pollers.alone, hi.pollers.flag, fun t' h h' => absurd h' (hring t' h),
        fun t' h => absurd h (hinside t'), hi.pollers.rank⟩
    · refine ⟨fun _ => .inl ⟨rfl, hdrain⟩, ?_, ?_, ?_⟩
      · intro h
        cases h
      · intro t' h
        exact absurd (hgone t') h
      · intro r' hr'
        rcases hr' with hr' | ⟨t', proc', hr'⟩
        · obtain rfl := Option.some.inj hr'
          exact hi.rings.large r (.inr ⟨t, proc, hat⟩)
        · dsimp only at hr'
          rw [hgone t'] at hr'
          cases hr'

theorem Inv.detachBegin (hi : Inv s) : Inv (npDetachBegin s) := by
  unfold npDetachBegin
  split_ifs with ha
  · exact hi
  have ha : s.attached = true := by simpa using ha
  have hne := hi.rings.hdr_ne ha
  have hdrain : s.draining = 0 := by
    rcases hi.rings.present hne with ⟨-, h⟩ | ⟨h, -⟩
    · exact h
    · rw [ha] at h
      cases h
  refine ⟨hi.safe, hi.writers.congr rfl rfl rfl, hi.pollers.congr rfl rfl rfl, ?_, ?_,
    hi.rings.attaching, hi.rings.large⟩
  · intro _
    dsimp only
    rw [hdrain]
    exact .inr ⟨rfl, rfl⟩
  · intro h
    exact absurd h hne

/-- The wait of a detach ends when no writer is left inside. -/
theorem WritersInv.idle (hi : WritersInv s) (hn : s.inflight ≤ 0) : ∀ t, ¬(s.writers t).Counted := by
  obtain ⟨S, hS, hcard⟩ := hi.counted
  have hempty : S = ∅ := by
    rw [← Finset.card_eq_zero]
    omega
  intro t ht
  have hmem := (hS t).mp ht
  rw [hempty] at hmem
  exact absurd hmem (Finset.notMem_empty t)

theorem Inv.detachEnd (hi : Inv s) (hn : s.inflight ≤ 0) (hout : ∀ t, (s.pollers t).Out)
    (hdrain : s.draining ≠ 0) : Inv (npDetachEnd s) := by
  have hidle := hi.writers.idle hn
  have hne : s.hdr ≠ none := fun h => hdrain (hi.rings.absent h).2
  have hnow : s.attached = false ∧ s.draining = 1 := by
    rcases hi.rings.present hne with ⟨-, h⟩ | h
    · exact absurd h hdrain
    · exact h
  unfold npDetachEnd
  refine ⟨hi.safe, ?_, ?_, ?_⟩
  · refine ⟨hi.writers.counted, hi.writers.count, hi.writers.alone, ?_, hi.writers.frame,
      hi.writers.fills⟩
    intro t h h'
    have hc := hidle t
    dsimp only at h'
    cases hw : s.writers t with
    | filled => rw [hw] at hc; exact absurd trivial hc
    | _ => rw [hw] at h'; cases h'
  · refine ⟨hi.pollers.alone, hi.pollers.flag, ?_, ?_, hi.pollers.rank⟩
    · intro t h h'
      have ho := hout t
      dsimp only at h'
      cases hp : s.pollers t with
      | idle | checked | exiting => rw [hp] at h'; cases h'
      | _ => rw [hp] at ho; exact ho.elim
    · intro t h
      have ho := hout t
      dsimp only at h
      cases hp : s.pollers t with
      | idle | checked | exiting => rw [hp] at h; exact h.elim
      | _ => rw [hp] at ho; exact ho.elim
  · refine ⟨fun h => absurd rfl h, fun _ => ⟨hnow.1, ?_⟩, ?_, ?_⟩
    · dsimp only
      rw [hnow.2]
    · intro t h
      exact ⟨rfl, (hi.rings.attaching t h).2⟩
    · intro r hr
      rcases hr with hr | hr
      · cases hr
      · exact hi.rings.large r (.inr hr)

theorem Inv.server (hi : Inv s) {f : RingRef → Machine} (hf : ∀ r, Inv (f r)) : Inv (s.server f) := by
  unfold Machine.server
  cases s.hdr with
  | none => exact hi
  | some r =>
    dsimp only
    split_ifs
    · exact hf r
    · exact hi

theorem Inv.step (hi : Inv s) (hk : Kind s a) : Inv (Netproxy.step s a) := by
  cases a with
  | write t buffer =>
    exact ⟨.write hi t buffer, hi.writers.write hi.rings hk, npWrite_pollers hi.pollers t buffer,
      npWrite_rings hi.rings t buffer⟩
  | poll t =>
    exact ⟨.poll hi t, npRxpoll_writers hi.writers t, hi.pollers.poll hi.rings hk,
      npRxpoll_rings hi.rings t⟩
  | attachBegin t proc req => exact hi.attachBegin hk
  | attachEnd t => exact hi.attachEnd hk
  | detachBegin proc =>
    unfold Netproxy.step
    dsimp only
    split_ifs
    · exact hi.detachBegin
    · exact hi
  | detachEnd timeout =>
    unfold Netproxy.step
    dsimp only
    split_ifs with hgo
    · exact hi.detachEnd hk.1 hk.2 hgo.1
    · exact hi
  | serverFill frame =>
    apply hi.server
    intro r
    unfold Netproxy.serverFill
    dsimp only
    split_ifs
    · exact hi.congr rfl rfl rfl rfl rfl rfl rfl rfl rfl
    · exact hi
  | serverPublish =>
    apply hi.server
    intro r
    unfold Netproxy.serverPublish
    dsimp only
    split_ifs
    · exact hi.congr rfl rfl rfl rfl rfl rfl rfl rfl rfl
    · exact hi
  | serverTake =>
    apply hi.server
    intro r
    unfold Netproxy.serverTake
    dsimp only
    split_ifs
    · exact hi
    · exact hi.congr rfl rfl rfl rfl rfl rfl rfl rfl rfl
  | store phys ring => exact hi.congr rfl rfl rfl rfl rfl rfl rfl rfl rfl

theorem inv_init (rings : ℕ → NetRing) : Inv { rings } := by
  refine ⟨fun a ha => absurd ha List.not_mem_nil, ⟨⟨∅, ?_, rfl⟩, ?_, ?_, ?_, ?_, ?_⟩,
    ⟨?_, ?_, ?_, ?_, ?_⟩, ⟨?_, ?_, ?_, ?_⟩⟩
  · intro t
    simp [Writer.Counted]
  · exact fun t n h => nomatch h
  · exact fun t t' h => h.elim
  · exact fun t h h' => nomatch h'
  · exact fun t f h => nomatch h
  · exact fun t t' h => h.elim
  · exact fun t t' h => absurd rfl h
  · exact fun t h => h.elim
  · exact fun t h h' => nomatch h'
  · exact fun t h => h.elim
  · exact fun t => Nat.zero_le _
  · exact fun h => absurd rfl h
  · exact fun _ => ⟨rfl, rfl⟩
  · exact fun t h => absurd rfl h
  · intro r hr
    rcases hr with hr | ⟨t, proc, hr⟩ <;> cases hr

/-! ## Polls end -/

/-- A step of a poll brings it nearer to its end. -/
theorem npRxpoll_rank (h : s.pollers t ≠ .idle) :
    ((npRxpoll s t).pollers t).rank < (s.pollers t).rank := by
  have hself : ∀ (s' : Machine) p, ((s'.setPoller t p).pollers t).rank = p.rank := by
    intro s' p
    exact congrArg Poller.rank (Function.update_self ..)
  unfold npRxpoll
  cases hp : s.pollers t with
  | idle => exact absurd hp h
  | loop h budget =>
    dsimp only
    split_ifs with hgo
    · rw [hself]
      dsimp only [Poller.rank]
      omega
    · rw [hself]
      dsimp only [Poller.rank]
      omega
  | body h budget =>
    dsimp only
    unfold npRxRead
    dsimp only
    split_ifs
    all_goals
      rw [hself]
      dsimp only [Poller.rank]
      omega
  | _ =>
    dsimp only
    rw [hself]
    dsimp only [Poller.rank]
    omega

/-- No other step moves a poll. -/
theorem step_pollers (h : a.isPoll t = false) : (step s a).pollers t = s.pollers t := by
  cases a with
  | write t' buffer =>
    unfold step npWrite
    dsimp only
    split
    · unfold npWriteEnter
      split_ifs <;> rfl
    · rfl
    · unfold npWriteFill
      dsimp only
      split_ifs <;> rfl
    all_goals rfl
  | poll t' =>
    have hne : t ≠ t' := by
      rintro rfl
      simp [Act.isPoll] at h
    unfold step npRxpoll
    dsimp only
    split
    · split_ifs
      · rfl
      · exact Function.update_of_ne hne ..
    · exact Function.update_of_ne hne ..
    · split_ifs <;> exact Function.update_of_ne hne ..
    · unfold npRxRead
      dsimp only
      split_ifs <;> exact Function.update_of_ne hne ..
    all_goals exact Function.update_of_ne hne ..
  | attachBegin t' proc req =>
    unfold step attachBegin
    dsimp only
    split_ifs <;> rfl
  | attachEnd t' =>
    unfold step attachEnd
    dsimp only
    split <;> rfl
  | detachBegin proc =>
    unfold step npDetachBegin
    dsimp only
    split_ifs <;> rfl
  | detachEnd timeout =>
    unfold step
    dsimp only
    split_ifs <;> rfl
  | serverFill frame =>
    unfold step Machine.server serverFill
    dsimp only
    split
    · rfl
    · split_ifs <;> rfl
  | serverPublish =>
    unfold step Machine.server serverPublish
    dsimp only
    split
    · rfl
    · split_ifs <;> rfl
  | serverTake =>
    unfold step Machine.server serverTake
    dsimp only
    split
    · rfl
    · split_ifs <;> rfl
  | store phys ring => rfl

theorem poll_ends (as : List Act) (h : (s.pollers t).rank ≤ as.countP (Act.isPoll t)) :
    ∃ bs, bs <+: as ∧ (run step s bs).pollers t = .idle := by
  by_cases hidle : s.pollers t = .idle
  · exact ⟨[], List.nil_prefix, hidle⟩
  induction as generalizing s with
  | nil =>
    have hzero : (s.pollers t).rank = 0 := Nat.le_zero.mp h
    cases hp : s.pollers t with
    | idle => exact absurd hp hidle
    | _ =>
      rw [hp] at hzero
      cases hzero
  | cons a as ih =>
    have hle : ((step s a).pollers t).rank ≤ as.countP (Act.isPoll t) := by
      rw [List.countP_cons] at h
      cases ha : a.isPoll t with
      | false =>
        rw [step_pollers ha]
        simpa [ha] using h
      | true =>
        have hpoll : a = .poll t := by
          cases a with
          | poll t' =>
            unfold Act.isPoll at ha
            rw [of_decide_eq_true ha]
          | _ => cases ha
        have hrank := npRxpoll_rank hidle
        rw [ha, if_pos rfl] at h
        rw [hpoll]
        unfold step
        dsimp only
        omega
    by_cases hnow : (step s a).pollers t = .idle
    · exact ⟨[a], by simp, hnow⟩
    · obtain ⟨bs, hbs, hend⟩ := ih hle hnow
      exact ⟨a :: bs, List.cons_prefix_cons.mpr ⟨rfl, hbs⟩, hend⟩

theorem Inv.pollsEnd (hi : Inv s) : PollsEnd s :=
  fun t as h => poll_ends as ((hi.pollers.rank t).trans h)

end Xeneva.Netproxy
