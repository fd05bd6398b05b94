import Xeneva.Hal.Termination

/-!
# Every wait is served
-/

namespace Xeneva.Termination
open Base

variable {s s' : State} {E : Target → Prop} {T : Target} {t p : ℕ} {w : Wait}

/-- What the operations inside an exit leave alone. -/
structure Frame (s s' : State) : Prop where
  procs : s'.procs = s.procs
  waits : s'.waits = s.waits
  thread_id : s'.thread_id = s.thread_id
  pid : s'.pid = s.pid
  woken : ∀ i, i ∈ s.woken → i ∈ s'.woken
  main : ∀ p, (s'.proc p).main_thread = (s.proc p).main_thread
  threads : ∀ p, (s'.proc p).threads = (s.proc p).threads
  died : ∀ p, (s'.proc p).died = (s.proc p).died
  killable : ∀ t, (s.thr t).state = .killable → (s'.thr t).state = .killable
  found : ∀ t, (auThreadFindByID s' t).isSome → (auThreadFindByID s t).isSome

theorem Frame.refl (s : State) : Frame s s :=
  ⟨rfl, rfl, rfl, rfl, fun _ h => h, fun _ => rfl, fun _ => rfl, fun _ => rfl, fun _ h => h,
    fun _ h => h⟩

theorem Frame.trans {s'' : State} (h : Frame s s') (h' : Frame s' s'') : Frame s s'' where
  procs := h'.procs.trans h.procs
  waits := h'.waits.trans h.waits
  thread_id := h'.thread_id.trans h.thread_id
  pid := h'.pid.trans h.pid
  woken := fun i hi => h'.woken i (h.woken i hi)
  main := fun p => (h'.main p).trans (h.main p)
  threads := fun p => (h'.threads p).trans (h.threads p)
  died := fun p => (h'.died p).trans (h.died p)
  killable := fun t ht => h'.killable t (h.killable t ht)
  found := fun t ht => h.found t (h'.found t ht)

theorem Frame.notWaiting (h : Frame s s') (hn : s.NotWaiting t) : s'.NotWaiting t := by
  intro w hw ht
  rw [h.waits] at hw
  exact h.woken _ (hn w hw ht)

theorem pending_eq_nil_iff : s.pending T = [] ↔ ∀ w ∈ s.waits, w.target = T → w.id ∈ s.woken := by
  unfold State.pending
  rw [List.filter_eq_nil_iff]
  simp only [decide_eq_true_eq, not_and, not_not]

theorem Frame.pending_nil (h : Frame s s') (hn : s.pending T = []) : s'.pending T = [] := by
  rw [pending_eq_nil_iff] at hn ⊢
  intro w hw ht
  rw [h.waits] at hw
  exact h.woken _ (hn w hw ht)

theorem mem_pending : w ∈ s.pending T ↔ w ∈ s.waits ∧ w.target = T ∧ w.id ∉ s.woken := by
  unfold State.pending
  rw [List.mem_filter, decide_eq_true_iff]

theorem mem_threadWaits : w ∈ s.threadWaits p ↔ w ∈ s.waits ∧ w.target.isThread = true ∧
    w.id ∉ s.woken ∧ (s.proc p).main_thread = some w.waiter := by
  unfold State.threadWaits
  rw [List.mem_filter, decide_eq_true_iff]

/-- The targets in `E` are the ones that an exit is still about: those may have waiters although
they are gone, and may be waking them although they are not. -/
structure Core (E : Target → Prop) (s : State) : Prop where
  mains : ∀ p ∈ s.procs, ∀ q ∈ s.procs, ∀ t, (s.proc p).main_thread = some t →
    (s.proc q).main_thread = some t → p = q
  ids : (s.waits.map Wait.id).Nodup
  woken_lt : ∀ i ∈ s.woken, i < s.waits.length
  id_lt : ∀ w ∈ s.waits, w.id < s.waits.length
  once : s.woken.Nodup
  alive : ∀ w ∈ s.waits, w.id ∉ s.woken → (s.thr w.waiter).state ≠ .killable
  owner : ∀ w ∈ s.waits, w.id ∉ s.woken → w.target.isThread = true →
    ∃ p ∈ s.procs, (s.proc p).main_thread = some w.waiter
  gone : ∀ w ∈ s.waits, w.id ∈ s.woken → s.Gone w.target ∨ E w.target
  served : ∀ T, s.Gone T → ¬ E T → s.pending T = []
  count : ∀ p ∈ s.procs, (s.proc p).waiting_threads.toNat = (s.threadWaits p).length
  busy : ∀ p ∈ s.procs, (s.proc p).busy = true ↔ 0 < (s.proc p).waiting_threads.toNat
  small : ∀ p ∈ s.procs, (s.proc p).waiting_threads.toNat < 32768

/-- The wait lists have the pending waits. -/
structure Lists (s : State) : Prop where
  thread : ∀ t, (s.thr t).waitlist.getD [] = (s.pending (.thread t)).map Wait.entry
  process : ∀ p, (s.proc p).waitlist.getD [] = (s.pending (.process p)).map Wait.entry

theorem Core.mono {E' : Target → Prop} (hc : Core E s) (h : ∀ T, E T → E' T) : Core E' s :=
  { hc with
    gone := fun w hw hk => (hc.gone w hw hk).imp_right (h _)
    served := fun T hT hE => hc.served T hT fun he => hE (h T he) }

theorem Core.inj (hc : Core E s) {w w' : Wait} (h : w ∈ s.waits) (h' : w' ∈ s.waits)
    (he : w.id = w'.id) : w = w' := List.inj_on_of_nodup_map hc.ids h h' he

theorem Core.waits_nodup (hc : Core E s) : s.waits.Nodup := List.Nodup.of_map _ hc.ids

/-! ## Waking one waiter -/

@[simp] theorem wake_woken (s : State) (e : Waiter) : (wake s e).woken = e.id :: s.woken := rfl

@[simp] theorem wake_proc (s : State) (e : Waiter) : (wake s e).proc = s.proc := rfl

/-- Unblocking a thread that has not exited. -/
theorem auUnblockThread_state (ht : (s.thr t).state ≠ .killable) (t' : ℕ) :
    ((auUnblockThread s t).thr t').state = .killable ↔ (s.thr t').state = .killable := by
  unfold auUnblockThread State.setThr
  dsimp only
  by_cases he : t' = t
  · rw [he, Function.update_self]
    dsimp only
    split_ifs with h
    · exact iff_of_false (by decide) ht
    · exact Iff.rfl
  · rw [Function.update_of_ne he]

theorem auThreadFindByID_congr (h : (s'.thr t).place = (s.thr t).place) :
    auThreadFindByID s' t = auThreadFindByID s t := by
  unfold auThreadFindByID
  rw [h]

theorem auThreadFindByID_unblock (s : State) (t t' : ℕ) :
    (auThreadFindByID (auUnblockThread s t) t').isSome = (auThreadFindByID s t').isSome := by
  by_cases he : t' = t
  · unfold auThreadFindByID auUnblockThread State.setThr
    dsimp only
    rw [he, Function.update_self]
    dsimp only
    split_ifs with h
    · rw [h]
    · rfl
  · rw [auThreadFindByID_congr]
    unfold auUnblockThread State.setThr
    dsimp only
    rw [Function.update_of_ne he]

theorem auUnblockThread_waitlist (s : State) (t t' : ℕ) :
    ((auUnblockThread s t).thr t').waitlist = (s.thr t').waitlist := by
  unfold auUnblockThread State.setThr
  dsimp only
  by_cases he : t' = t
  · rw [he, Function.update_self]
  · rw [Function.update_of_ne he]

theorem pending_wake (hw : s'.waits = s.waits) (hk : s'.woken = w.id :: s.woken) (T : Target) :
    s'.pending T = (s.pending T).filter fun x => x.id ≠ w.id := by
  unfold State.pending
  rw [hw, hk, List.filter_filter]
  refine List.filter_congr fun x _ => ?_
  rw [← Bool.decide_and]
  refine decide_eq_decide.mpr ?_
  rw [List.mem_cons, not_or]
  tauto

theorem Core.pending_tail (hc : Core E s) {rest : List Wait} (h : s.pending T = w :: rest) :
    ((s.pending T).filter fun x => x.id ≠ w.id) = rest := by
  have hnd : (s.pending T).Nodup := hc.waits_nodup.filter _
  have hw : w ∈ s.waits := (mem_pending.mp (h ▸ List.mem_cons_self)).1
  rw [h] at hnd ⊢
  rw [List.filter_cons_of_neg (by simp), List.filter_eq_self]
  intro x hx
  have hxw : x ∈ s.waits := (mem_pending.mp (h ▸ List.mem_cons_of_mem w hx)).1
  rw [decide_eq_true_iff]
  intro he
  rw [hc.inj hxw hw he] at hx
  exact (List.nodup_cons.mp hnd).1 hx

theorem Core.pending_other (hc : Core E s) (hw : w ∈ s.waits) (h : w.target ≠ T) :
    ((s.pending T).filter fun x => x.id ≠ w.id) = s.pending T := by
  rw [List.filter_eq_self]
  intro x hx
  obtain ⟨hxw, hxt, -⟩ := mem_pending.mp hx
  rw [decide_eq_true_iff]
  intro he
  rw [hc.inj hxw hw he] at hxt
  exact h hxt

/-- One wait fewer. -/
theorem Core.length_filter (hc : Core E s) {l : List Wait} (hl : l.Nodup)
    (hsub : ∀ x ∈ l, x ∈ s.waits) (hw : w ∈ l) :
    (l.filter fun x => x.id ≠ w.id).length + 1 = l.length := by
  have he : (l.filter fun x => x.id ≠ w.id) = l.erase w := by
    rw [hl.erase_eq_filter]
    refine List.filter_congr fun x hx => ?_
    rw [Bool.eq_iff_iff, decide_eq_true_iff, bne_iff_ne]
    refine not_congr ⟨fun h => hc.inj (hsub x hx) (hsub w hw) h, fun h => by rw [h]⟩
  rw [he, List.length_erase_of_mem hw]
  have := List.length_pos_of_mem hw
  omega

theorem threadWaits_wake (hw : s'.waits = s.waits) (hk : s'.woken = w.id :: s.woken)
    (hm : ∀ p, (s'.proc p).main_thread = (s.proc p).main_thread) (p : ℕ) :
    s'.threadWaits p = (s.threadWaits p).filter fun x => x.id ≠ w.id := by
  unfold State.threadWaits
  rw [hw, hk, hm, List.filter_filter]
  refine List.filter_congr fun x _ => ?_
  rw [← Bool.decide_and]
  refine decide_eq_decide.mpr ?_
  rw [List.mem_cons, not_or]
  tauto

theorem threadWaits_filter_eq (hc : Core E s) (hw : w ∈ s.waits) (h : w ∉ s.threadWaits p) :
    ((s.threadWaits p).filter fun x => x.id ≠ w.id) = s.threadWaits p := by
  rw [List.filter_eq_self]
  intro x hx
  rw [decide_eq_true_iff]
  intro he
  rw [hc.inj (mem_threadWaits.mp hx).1 hw he] at hx
  exact h hx

/-- A wait whose counters are right again. -/
theorem Core.ofWake (hc : Core E s) (hw : w ∈ s.waits) (hn : w.id ∉ s.woken)
    (hE : s.Gone w.target ∨ E w.target) (hf : Frame s s') (hk : s'.woken = w.id :: s.woken)
    (hst : ∀ t, (s'.thr t).state = .killable ↔ (s.thr t).state = .killable)
    (hcount : ∀ p ∈ s.procs, (s'.proc p).waiting_threads.toNat =
      ((s.threadWaits p).filter fun x => x.id ≠ w.id).length)
    (hbusy : ∀ p ∈ s.procs, (s'.proc p).busy = true ↔ 0 < (s'.proc p).waiting_threads.toNat) :
    Core E s' := by
  have hgone : ∀ T, s'.Gone T ↔ s.Gone T := by
    intro T
    cases T with
    | thread t => exact hst t
    | process p =>
      show (s'.proc p).died = true ↔ (s.proc p).died = true
      rw [hf.died]
  have hnot : ∀ i, i ∉ s'.woken → i ∉ s.woken := fun i h h' => h (hf.woken i h')
  refine ⟨?_, ?_, ?_, ?_, ?_, ?_, ?_, ?_, ?_, ?_, ?_, ?_⟩
  · rw [hf.procs]
    intro p hp q hq t h h'
    rw [hf.main] at h h'
    exact hc.mains p hp q hq t h h'
  · rw [hf.waits]
    exact hc.ids
  · rw [hf.waits, hk]
    intro i hi
    rcases List.mem_cons.mp hi with rfl | hi
    · exact hc.id_lt w hw
    · exact hc.woken_lt i hi
  · rw [hf.waits]
    exact hc.id_lt
  · rw [hk]
    exact List.nodup_cons.mpr ⟨hn, hc.once⟩
  · rw [hf.waits]
    intro x hx hxw h
    exact hc.alive x hx (hnot _ hxw) ((hst _).mp h)
  · rw [hf.waits, hf.procs]
    intro x hx hxw hth
    obtain ⟨p, hp, hm⟩ := hc.owner x hx (hnot _ hxw) hth
    exact ⟨p, hp, (hf.main p).trans hm⟩
  · rw [hf.waits, hk]
    intro x hx hxw
    rw [hgone]
    rcases List.mem_cons.mp hxw with h | h
    · rw [hc.inj hx hw h]
      exact hE
    · exact hc.gone x hx h
  · intro T hT hET
    exact hf.pending_nil (hc.served T ((hgone T).mp hT) hET)
  · rw [hf.procs]
    intro p hp
    rw [hcount p hp, threadWaits_wake hf.waits hk hf.main]
  · rw [hf.procs]
    exact hbusy
  · rw [hf.procs]
    intro p hp
    rw [hcount p hp]
    have hle := List.length_filter_le (fun x => decide (x.id ≠ w.id)) (s.threadWaits p)
    have := hc.small p hp
    rw [hc.count p hp] at this
    omega

theorem frame_wake (s : State) {e : Waiter} (ha : (s.thr e.thr).state ≠ .killable) :
    Frame s (wake s e) where
  procs := rfl
  waits := rfl
  thread_id := rfl
  pid := rfl
  woken := fun _ h => List.mem_cons_of_mem _ h
  main := fun _ => rfl
  threads := fun _ => rfl
  died := fun _ => rfl
  killable := fun t h => (auUnblockThread_state ha t).mpr h
  found := fun t h => by rwa [← auThreadFindByID_unblock s e.thr t]

/-- The counter of a process after one of its waits ended. -/
theorem auProcessReapWaitcount_spec (s : State) (p : ℕ) (h0 : 0 < (s.proc p).waiting_threads.toNat)
    (hs : (s.proc p).waiting_threads.toNat < 32768) (hb : (s.proc p).busy = true) :
    (∀ q, q ≠ p → (auProcessReapWaitcount s p).proc q = s.proc q) ∧
      ((auProcessReapWaitcount s p).proc p).waiting_threads.toNat =
        (s.proc p).waiting_threads.toNat - 1 ∧
      (((auProcessReapWaitcount s p).proc p).busy = true ↔
        0 < ((auProcessReapWaitcount s p).proc p).waiting_threads.toNat) := by
  have hn : ((s.proc p).waiting_threads - 1).toNat = (s.proc p).waiting_threads.toNat - 1 := by
    have hle : (1 : UInt16) ≤ (s.proc p).waiting_threads := UInt16.le_iff_toNat_le.mpr h0
    rw [UInt16.toNat_sub_of_le _ _ hle]
    rfl
  unfold auProcessReapWaitcount
  dsimp only
  split_ifs with h
  · unfold State.setProc
    dsimp only
    have hz : (s.proc p).waiting_threads.toNat - 1 = 0 := by
      rcases h with h | h
      · rw [← hn, h]
        rfl
      · have hbig : 32768 ≤ ((s.proc p).waiting_threads - 1).toNat := UInt16.le_iff_toNat_le.mp h
        omega
    refine ⟨fun q hq => Function.update_of_ne hq .., ?_, ?_⟩
    · rw [Function.update_self, hz]
      rfl
    · rw [Function.update_self]
      exact iff_of_false Bool.false_ne_true (Nat.lt_irrefl 0)
  · rw [not_or] at h
    have hpos : 0 < ((s.proc p).waiting_threads - 1).toNat := by
      rw [Nat.pos_iff_ne_zero]
      exact fun h' => h.1 (UInt16.toNat_inj.mp h')
    unfold State.setProc
    dsimp only
    refine ⟨fun q hq => Function.update_of_ne hq .., ?_, ?_⟩
    · rw [Function.update_self]
      exact hn
    · rw [Function.update_self]
      exact iff_of_true hb hpos

theorem frame_reapWaitcount (s : State) (p : ℕ) : Frame s (auProcessReapWaitcount s p) := by
  have hproc : ∀ q, ((auProcessReapWaitcount s p).proc q).main_thread = (s.proc q).main_thread ∧
      ((auProcessReapWaitcount s p).proc q).threads = (s.proc q).threads ∧
      ((auProcessReapWaitcount s p).proc q).died = (s.proc q).died := by
    intro q
    unfold auProcessReapWaitcount
    dsimp only
    split_ifs <;> unfold State.setProc <;> dsimp only <;> by_cases hq : q = p
    · rw [hq, Function.update_self]
      exact ⟨rfl, rfl, rfl⟩
    · rw [Function.update_of_ne hq]
      exact ⟨rfl, rfl, rfl⟩
    · rw [hq, Function.update_self]
      exact ⟨rfl, rfl, rfl⟩
    · rw [Function.update_of_ne hq]
      exact ⟨rfl, rfl, rfl⟩
  have hrest : (auProcessReapWaitcount s p).procs = s.procs ∧
      (auProcessReapWaitcount s p).waits = s.waits ∧
      (auProcessReapWaitcount s p).thread_id = s.thread_id ∧
      (auProcessReapWaitcount s p).pid = s.pid ∧
      (auProcessReapWaitcount s p).woken = s.woken ∧
      (auProcessReapWaitcount s p).thr = s.thr := by
    unfold auProcessReapWaitcount
    dsimp only
    split_ifs <;> exact ⟨rfl, rfl, rfl, rfl, rfl, rfl⟩
  obtain ⟨h1, h2, h3, h4, h5, h6⟩ := hrest
  refine ⟨h1, h2, h3, h4, fun i hi => by rwa [h5], fun q => (hproc q).1, fun q => (hproc q).2.1,
    fun q => (hproc q).2.2, fun t ht => by rwa [h6], fun t ht => ?_⟩
  rwa [auThreadFindByID_congr (s := s) (by rw [h6])] at ht

/-- What a thread's death changes of the wait lists: nothing yet. -/
structure KeepsLists (s s' : State) : Prop where
  thread : ∀ t, (s'.thr t).waitlist = (s.thr t).waitlist
  process : ∀ p, (s'.proc p).waitlist = (s.proc p).waitlist

theorem KeepsLists.trans {s'' : State} (h : KeepsLists s s') (h' : KeepsLists s' s'') :
    KeepsLists s s'' :=
  ⟨fun t => (h'.thread t).trans (h.thread t), fun p => (h'.process p).trans (h.process p)⟩

/-- No thread dies or comes back. -/
def KeepsDead (s s' : State) : Prop :=
  ∀ t, (s'.thr t).state = .killable ↔ (s.thr t).state = .killable

theorem auProcessReapWaitcount_thr (s : State) (p : ℕ) :
    (auProcessReapWaitcount s p).thr = s.thr := by
  unfold auProcessReapWaitcount
  dsimp only
  split_ifs <;> rfl

theorem auProcessReapWaitcount_woken (s : State) (p : ℕ) :
    (auProcessReapWaitcount s p).woken = s.woken := by
  unfold auProcessReapWaitcount
  dsimp only
  split_ifs <;> rfl

theorem auProcessReapWaitcount_waitlist (s : State) (p q : ℕ) :
    ((auProcessReapWaitcount s p).proc q).waitlist = (s.proc q).waitlist := by
  unfold auProcessReapWaitcount State.setProc
  dsimp only
  split_ifs <;> dsimp only <;> by_cases hq : q = p
  · rw [hq, Function.update_self]
  · rw [Function.update_of_ne hq]
  · rw [hq, Function.update_self]
  · rw [Function.update_of_ne hq]

/-- One turn of the wake loop of a thread. -/
theorem Core.wakeThread (hc : Core E s) (hw : w ∈ s.waits) (hn : w.id ∉ s.woken)
    (ht : w.target.isThread = true) (hE : E w.target)
    (hp : auProcessFindThread s w.waiter = some p) :
    Core E (wake (auProcessReapWaitcount s p) w.entry) ∧
      Frame s (wake (auProcessReapWaitcount s p) w.entry) ∧
      KeepsLists s (wake (auProcessReapWaitcount s p) w.entry) ∧
      KeepsDead s (wake (auProcessReapWaitcount s p) w.entry) := by
  have ha : ((auProcessReapWaitcount s p).thr w.entry.thr).state ≠ .killable := by
    rw [auProcessReapWaitcount_thr]
    exact hc.alive w hw hn
  have hf := (frame_reapWaitcount s p).trans (frame_wake _ ha)
  have hd : KeepsDead s (wake (auProcessReapWaitcount s p) w.entry) := by
    intro t
    rw [← auProcessReapWaitcount_thr s p]
    exact auUnblockThread_state ha t
  have hmem : p ∈ s.procs := List.mem_of_find?_eq_some hp
  have hmain : (s.proc p).main_thread = some w.waiter := by
    simpa using List.find?_some hp
  have hin : w ∈ s.threadWaits p := mem_threadWaits.mpr ⟨hw, ht, hn, hmain⟩
  have h0 : 0 < (s.proc p).waiting_threads.toNat := by
    rw [hc.count p hmem]
    exact List.length_pos_of_mem hin
  obtain ⟨hother, hdec, hb⟩ := auProcessReapWaitcount_spec s p h0 (hc.small p hmem)
    ((hc.busy p hmem).mpr h0)
  refine ⟨hc.ofWake hw hn (.inr hE) hf ?_ hd (fun q hq => ?_) (fun q hq => ?_), hf,
    ⟨fun t => ?_, fun q => auProcessReapWaitcount_waitlist s p q⟩, hd⟩
  · rw [wake_woken, auProcessReapWaitcount_woken]
    rfl
  · rw [wake_proc]
    by_cases he : q = p
    · have hlen := hc.length_filter (l := s.threadWaits p) (hc.waits_nodup.filter _)
        (fun x hx => (mem_threadWaits.mp hx).1) hin
      have hcount := hc.count p hmem
      rw [he, hdec]
      omega
    · rw [hother q he, hc.count q hq, threadWaits_filter_eq hc hw]
      intro h
      exact he (hc.mains q hq p hmem _ (mem_threadWaits.mp h).2.2.2 hmain)
  · rw [wake_proc]
    by_cases he : q = p
    · rw [he]
      exact hb
    · rw [hother q he]
      exact hc.busy q hq
  · rw [← auProcessReapWaitcount_thr s p]
    exact auUnblockThread_waitlist _ _ _

/-- A waiter of a process is woken. -/
theorem Core.wakeProcess (hc : Core E s) (hw : w ∈ s.waits) (hn : w.id ∉ s.woken)
    (ht : w.target.isThread = false) (hE : E w.target) :
    Core E (wake s w.entry) ∧ Frame s (wake s w.entry) ∧ KeepsLists s (wake s w.entry) ∧
      KeepsDead s (wake s w.entry) := by
  have ha : (s.thr w.entry.thr).state ≠ .killable := hc.alive w hw hn
  refine ⟨hc.ofWake hw hn (.inr hE) (frame_wake s ha) rfl (auUnblockThread_state ha) (fun q hq => ?_)
    hc.busy, frame_wake s ha, ⟨fun t => auUnblockThread_waitlist _ _ _, fun _ => rfl⟩,
    auUnblockThread_state ha⟩
  rw [wake_proc, hc.count q hq, threadWaits_filter_eq hc hw]
  intro h
  have := (mem_threadWaits.mp h).2.1
  rw [ht] at this
  cases this

/-- What the end of a wake loop is: the waits for `T` are over, and no others. -/
structure Ended (s s' : State) (T : Target) : Prop where
  frame : Frame s s'
  lists : KeepsLists s s'
  dead : KeepsDead s s'
  here : s'.pending T = []
  rest : ∀ T', T' ≠ T → s'.pending T' = s.pending T'

theorem awakeLoop_spec (hE : E (.thread t)) (ws : List Wait) :
    ∀ s, Core E s → s.pending (.thread t) = ws →
      (awakeLoop s (ws.map Wait.entry)).2 = [] ∧ Core E (awakeLoop s (ws.map Wait.entry)).1 ∧
        Ended s (awakeLoop s (ws.map Wait.entry)).1 (.thread t) := by
  induction ws with
  | nil =>
    intro s hc h
    exact ⟨rfl, hc, Frame.refl s, ⟨fun _ => rfl, fun _ => rfl⟩, fun _ => Iff.rfl, h,
      fun _ _ => rfl⟩
  | cons w ws ih =>
    intro s hc h
    obtain ⟨hw, ht, hn⟩ := mem_pending.mp (h ▸ List.mem_cons_self)
    have hth : w.target.isThread = true := by rw [ht]; rfl
    obtain ⟨q, hq, hm⟩ := hc.owner w hw hn hth
    have hfind : (auProcessFindThread s w.waiter).isSome = true := by
      unfold auProcessFindThread
      rw [List.find?_isSome]
      exact ⟨q, hq, by rw [hm]; simp⟩
    obtain ⟨p, hp⟩ := Option.isSome_iff_exists.mp hfind
    obtain ⟨hc', hf, hl, hd⟩ := hc.wakeThread hw hn hth (by rw [ht]; exact hE) hp
    have hwoken : (wake (auProcessReapWaitcount s p) w.entry).woken = w.id :: s.woken := by
      rw [wake_woken, auProcessReapWaitcount_woken]
      rfl
    have hpend := pending_wake (s := s) (w := w) hf.waits hwoken
    obtain ⟨hnil, hcore, hend⟩ := ih _ hc' (by rw [hpend, hc.pending_tail h])
    have hstep : awakeLoop s ((w :: ws).map Wait.entry) =
        awakeLoop (wake (auProcessReapWaitcount s p) w.entry) (ws.map Wait.entry) := by
      rw [List.map_cons, awakeLoop]
      rw [show auProcessFindThread s w.entry.thr = some p from hp]
    rw [hstep]
    refine ⟨hnil, hcore, hf.trans hend.frame, hl.trans hend.lists,
      fun t' => (hend.dead t').trans (hd t'), hend.here, fun T' hT => ?_⟩
    rw [hend.rest T' hT, hpend]
    refine hc.pending_other hw fun h => hT ?_
    rw [← h, ht]

theorem wakeFold_spec (hE : E (.process p)) (ws : List Wait) :
    ∀ s, Core E s → s.pending (.process p) = ws →
      Core E ((ws.map Wait.entry).foldl wake s) ∧
        Ended s ((ws.map Wait.entry).foldl wake s) (.process p) := by
  induction ws with
  | nil =>
    intro s hc h
    exact ⟨hc, Frame.refl s, ⟨fun _ => rfl, fun _ => rfl⟩, fun _ => Iff.rfl, h, fun _ _ => rfl⟩
  | cons w ws ih =>
    intro s hc h
    obtain ⟨hw, ht, hn⟩ := mem_pending.mp (h ▸ List.mem_cons_self)
    obtain ⟨hc', hf, hl, hd⟩ := hc.wakeProcess hw hn (by rw [ht]; rfl) (by rw [ht]; exact hE)
    have hpend := pending_wake (s := s) (w := w) hf.waits rfl
    obtain ⟨hcore, hend⟩ := ih _ hc' (by rw [hpend, hc.pending_tail h])
    rw [List.map_cons, List.foldl_cons]
    refine ⟨hcore, hf.trans hend.frame, hl.trans hend.lists,
      fun t' => (hend.dead t').trans (hd t'), hend.here, fun T' hT => ?_⟩
    rw [hend.rest T' hT, hpend]
    refine hc.pending_other hw fun h => hT ?_
    rw [← h, ht]

/-! ## Exits -/

/-- The waits, and the counters of the processes that stay, are as they were. -/
theorem Core.shrink (hc : Core E s) (hprocs : ∀ p ∈ s'.procs, p ∈ s.procs)
    (hstay : ∀ p ∈ s.procs, ∀ w ∈ s.waits, w.id ∉ s.woken →
      (s.proc p).main_thread = some w.waiter → p ∈ s'.procs)
    (hwaits : s'.waits = s.waits) (hwoken : s'.woken = s.woken)
    (hmain : ∀ p ∈ s'.procs, (s'.proc p).main_thread = (s.proc p).main_thread)
    (hcount : ∀ p ∈ s'.procs, (s'.proc p).waiting_threads = (s.proc p).waiting_threads)
    (hbusy : ∀ p ∈ s'.procs, (s'.proc p).busy = (s.proc p).busy)
    (halive : ∀ w ∈ s.waits, w.id ∉ s.woken → (s'.thr w.waiter).state ≠ .killable)
    (hgone : ∀ w ∈ s.waits, s.Gone w.target → s'.Gone w.target)
    (hnew : ∀ T, s'.Gone T → s.Gone T ∨ E T ∨ s.pending T = []) : Core E s' := by
  have hpend : ∀ T, s'.pending T = s.pending T := by
    intro T
    unfold State.pending
    rw [hwaits, hwoken]
  have htw : ∀ p ∈ s'.procs, s'.threadWaits p = s.threadWaits p := by
    intro p hp
    unfold State.threadWaits
    rw [hwaits, hwoken, hmain p hp]
  refine ⟨?_, ?_, ?_, ?_, ?_, ?_, ?_, ?_, ?_, ?_, ?_, ?_⟩
  · intro p hp q hq t h h'
    rw [hmain p hp] at h
    rw [hmain q hq] at h'
    exact hc.mains p (hprocs p hp) q (hprocs q hq) t h h'
  · rw [hwaits]
    exact hc.ids
  · rw [hwaits, hwoken]
    exact hc.woken_lt
  · rw [hwaits]
    exact hc.id_lt
  · rw [hwoken]
    exact hc.once
  · rw [hwaits, hwoken]
    exact halive
  · rw [hwaits, hwoken]
    intro w hw hn ht
    obtain ⟨p, hp, hm⟩ := hc.owner w hw hn ht
    have hp' := hstay p hp w hw hn hm
    exact ⟨p, hp', (hmain p hp').trans hm⟩
  · rw [hwaits, hwoken]
    exact fun w hw hk => (hc.gone w hw hk).imp_left (hgone w hw)
  · intro T hT hE
    rw [hpend]
    rcases hnew T hT with h | h | h
    · exact hc.served T h hE
    · exact absurd h hE
    · exact h
  · intro p hp
    rw [hcount p hp, htw p hp]
    exact hc.count p (hprocs p hp)
  · intro p hp
    rw [hcount p hp, hbusy p hp]
    exact hc.busy p (hprocs p hp)
  · intro p hp
    rw [hcount p hp]
    exact hc.small p (hprocs p hp)

theorem Core.congr (hc : Core E s) (hprocs : s'.procs = s.procs) (hwaits : s'.waits = s.waits)
    (hwoken : s'.woken = s.woken)
    (hmain : ∀ p ∈ s.procs, (s'.proc p).main_thread = (s.proc p).main_thread)
    (hcount : ∀ p ∈ s.procs, (s'.proc p).waiting_threads = (s.proc p).waiting_threads)
    (hbusy : ∀ p ∈ s.procs, (s'.proc p).busy = (s.proc p).busy)
    (halive : ∀ w ∈ s.waits, w.id ∉ s.woken → (s'.thr w.waiter).state ≠ .killable)
    (hgone : ∀ w ∈ s.waits, s.Gone w.target → s'.Gone w.target)
    (hnew : ∀ T, s'.Gone T → s.Gone T ∨ E T ∨ s.pending T = []) : Core E s' := by
  rw [← hprocs] at hmain hcount hbusy
  exact hc.shrink (fun p hp => hprocs ▸ hp) (fun p hp _ _ _ _ => hprocs.symm ▸ hp) hwaits hwoken
    hmain hcount hbusy halive hgone hnew

theorem Lists.keep (hl : Lists s) (hk : KeepsLists s s') (hp : ∀ T, s'.pending T = s.pending T) :
    Lists s' := by
  refine ⟨fun t => ?_, fun p => ?_⟩
  · rw [hk.thread, hp]
    exact hl.thread t
  · rw [hk.process, hp]
    exact hl.process p

theorem frame_setState (s : State) (t : ℕ) (x : AA64Thread) (hx : x.state = .killable)
    (hp : x.place = some .trash ∨ x.place = (s.thr t).place) : Frame s (s.setThr t x) := by
  refine ⟨rfl, rfl, rfl, rfl, fun _ h => h, fun _ => rfl, fun _ => rfl, fun _ => rfl,
    fun t' h => ?_, fun t' h => ?_⟩
  · unfold State.setThr
    dsimp only
    by_cases he : t' = t
    · rw [he, Function.update_self]
      exact hx
    · rw [Function.update_of_ne he]
      exact h
  · by_cases he : t' = t
    · subst he
      rcases hp with hp | hp
      · unfold auThreadFindByID State.setThr at h
        dsimp only at h
        rw [Function.update_self, hp] at h
        cases h
      · rwa [auThreadFindByID_congr (s := s)] at h
        unfold State.setThr
        dsimp only
        rwa [Function.update_self]
    · rwa [auThreadFindByID_congr (s := s)] at h
      unfold State.setThr
      dsimp only
      rw [Function.update_of_ne he]

/-- A thread becomes killable. -/
theorem Core.kill (hc : Core E s) (hn : s.NotWaiting t)
    (hE : E (.thread t) ∨ s.pending (.thread t) = []) (x : AA64Thread) (hx : x.state = .killable)
    (hp : x.place = some .trash ∨ x.place = (s.thr t).place) : Core E (s.setThr t x) := by
  have hf := frame_setState s t x hx hp
  refine hc.congr rfl rfl rfl (fun _ _ => rfl) (fun _ _ => rfl) (fun _ _ => rfl) (fun w hw hk => ?_)
    (fun w _ hT => ?_) fun T hT => ?_
  · have hne : w.waiter ≠ t := fun h => hk (hn w hw h)
    unfold State.setThr
    dsimp only
    rw [Function.update_of_ne hne]
    exact hc.alive w hw hk
  · generalize w.target = T at hT
    cases T with
    | thread t' => exact hf.killable t' hT
    | process p => exact hT
  · cases T with
    | thread t' =>
      by_cases he : t' = t
      · rw [he]
        exact .inr hE
      · unfold State.Gone State.setThr at hT
        dsimp only at hT
        rw [Function.update_of_ne he] at hT
        exact .inl hT
    | process p => exact .inl hT

/-- The state inside an exit. -/
structure Exiting (E : Target → Prop) (s₀ s : State) : Prop where
  core : Core E s
  lists : Lists s
  frame : Frame s₀ s

theorem Exiting.trash {s₀ : State} (h : Exiting E s₀ s) (hn : s₀.NotWaiting t)
    (hE : E (.thread t) ∨ s₀.pending (.thread t) = []) :
    Exiting E s₀ (auThreadMoveToTrash s t) ∧
      ((auThreadMoveToTrash s t).thr t).state = .killable := by
  unfold auThreadMoveToTrash
  dsimp only
  split_ifs with hk
  · exact ⟨h, hk⟩
  · refine ⟨⟨h.core.kill (h.frame.notWaiting hn) (hE.imp_right h.frame.pending_nil) _ rfl
        (.inl rfl),
      h.lists.keep ⟨fun t' => ?_, fun _ => rfl⟩ fun _ => rfl,
      h.frame.trans (frame_setState s t _ rfl (.inl rfl))⟩, ?_⟩
    · unfold State.setThr
      dsimp only
      by_cases he : t' = t
      · rw [he, Function.update_self]
      · rw [Function.update_of_ne he]
    · unfold State.setThr
      dsimp only
      rw [Function.update_self]

theorem Exiting.free {s₀ : State} (h : Exiting E s₀ s) (hE : E (.thread t)) :
    Exiting E s₀ (auProcessFreeKeResource s t) ∧ KeepsDead s (auProcessFreeKeResource s t) ∧
      (auProcessFreeKeResource s t).pending (.thread t) = [] := by
  unfold auProcessFreeKeResource auThreadAwakeWaiters
  have hlist := h.lists.thread t
  cases hw : (s.thr t).waitlist with
  | none =>
    rw [hw] at hlist
    exact ⟨h, fun _ => Iff.rfl, List.map_eq_nil_iff.mp hlist.symm⟩
  | some ws =>
    rw [hw] at hlist
    have hws : ws = (s.pending (.thread t)).map Wait.entry := hlist
    obtain ⟨hrest, hcore, hend⟩ := awakeLoop_spec hE _ s h.core rfl
    rw [← hws] at hrest hcore hend
    dsimp only
    rw [hrest]
    generalize (awakeLoop s ws).1 = s1 at hcore hend
    have hstate : ∀ t', ((s1.setThr t { s1.thr t with waitlist := some [] }).thr t').state =
        (s1.thr t').state := by
      intro t'
      unfold State.setThr
      dsimp only
      by_cases he : t' = t
      · rw [he, Function.update_self]
      · rw [Function.update_of_ne he]
    have hgone : ∀ T, (s1.setThr t { s1.thr t with waitlist := some [] }).Gone T ↔ s1.Gone T := by
      intro T
      cases T with
      | thread t' =>
        show (State.thr _ t').state = _ ↔ _
        rw [hstate]
        rfl
      | process p => exact Iff.rfl
    refine ⟨⟨hcore.congr rfl rfl rfl (fun _ _ => rfl) (fun _ _ => rfl) (fun _ _ => rfl)
      (fun w hw hk => ?_) (fun w _ hT => (hgone w.target).mpr hT) fun T hT => .inl ((hgone T).mp hT),
      ⟨fun t' => ?_, fun p => ?_⟩, (h.frame.trans hend.frame).trans ?_⟩, fun t' => ?_, hend.here⟩
    · rw [hstate]
      exact hcore.alive w hw hk
    · show (State.thr _ t').waitlist.getD [] = (s1.pending (.thread t')).map Wait.entry
      unfold State.setThr
      dsimp only
      by_cases he : t' = t
      · rw [he, Function.update_self, hend.here]
        rfl
      · rw [Function.update_of_ne he, hend.lists.thread, hend.rest _ fun h => he (by cases h; rfl)]
        exact h.lists.thread t'
    · show (s1.proc p).waitlist.getD [] = (s1.pending (.process p)).map Wait.entry
      rw [hend.lists.process, hend.rest _ fun h => by cases h]
      exact h.lists.process p
    · refine ⟨rfl, rfl, rfl, rfl, fun _ h => h, fun _ => rfl, fun _ => rfl, fun _ => rfl,
        fun t' h => (hstate t').trans h, fun t' h => ?_⟩
      rwa [auThreadFindByID_congr (s := s1)] at h
      unfold State.setThr
      dsimp only
      by_cases he : t' = t
      · rw [he, Function.update_self]
      · rw [Function.update_of_ne he]
    · rw [hstate]
      exact hend.dead t'

theorem Exiting.wakeWaiters {s₀ : State} (h : Exiting E s₀ s) (hE : E (.process p)) :
    Exiting E s₀ (auProcessWakeWaiters s p) ∧ KeepsDead s (auProcessWakeWaiters s p) ∧
      (auProcessWakeWaiters s p).pending (.process p) = [] := by
  unfold auProcessWakeWaiters
  have hlist := h.lists.process p
  cases hw : (s.proc p).waitlist with
  | none =>
    rw [hw] at hlist
    exact ⟨h, fun _ => Iff.rfl, List.map_eq_nil_iff.mp hlist.symm⟩
  | some ws =>
    rw [hw] at hlist
    have hws : ws = (s.pending (.process p)).map Wait.entry := hlist
    obtain ⟨hcore, hend⟩ := wakeFold_spec hE _ s h.core rfl
    rw [← hws] at hcore hend
    dsimp only
    generalize ws.foldl wake s = s1 at hcore hend
    have hproc : ∀ q, ((s1.setProc p { s1.proc p with waitlist := none }).proc q).main_thread =
          (s1.proc q).main_thread ∧
        ((s1.setProc p { s1.proc p with waitlist := none }).proc q).threads = (s1.proc q).threads ∧
        ((s1.setProc p { s1.proc p with waitlist := none }).proc q).died = (s1.proc q).died ∧
        ((s1.setProc p { s1.proc p with waitlist := none }).proc q).waiting_threads =
          (s1.proc q).waiting_threads ∧
        ((s1.setProc p { s1.proc p with waitlist := none }).proc q).busy = (s1.proc q).busy := by
      intro q
      unfold State.setProc
      dsimp only
      by_cases he : q = p
      · rw [he, Function.update_self]
        exact ⟨rfl, rfl, rfl, rfl, rfl⟩
      · rw [Function.update_of_ne he]
        exact ⟨rfl, rfl, rfl, rfl, rfl⟩
    have hgone : ∀ T, (s1.setProc p { s1.proc p with waitlist := none }).Gone T ↔ s1.Gone T := by
      intro T
      cases T with
      | thread t' => exact Iff.rfl
      | process q =>
        show (State.proc _ q).died = true ↔ _
        rw [(hproc q).2.2.1]
        rfl
    refine ⟨⟨hcore.congr rfl rfl rfl (fun q _ => (hproc q).1) (fun q _ => (hproc q).2.2.2.1)
      (fun q _ => (hproc q).2.2.2.2) hcore.alive (fun w _ hT => (hgone w.target).mpr hT)
      fun T hT => .inl ((hgone T).mp hT), ⟨fun t' => ?_, fun q => ?_⟩,
      (h.frame.trans hend.frame).trans ?_⟩, hend.dead, hend.here⟩
    · show (s1.thr t').waitlist.getD [] = (s1.pending (.thread t')).map Wait.entry
      rw [hend.lists.thread, hend.rest _ fun h => by cases h]
      exact h.lists.thread t'
    · show (State.proc _ q).waitlist.getD [] = (s1.pending (.process q)).map Wait.entry
      unfold State.setProc
      dsimp only
      by_cases he : q = p
      · rw [he, Function.update_self, hend.here]
        rfl
      · rw [Function.update_of_ne he, hend.lists.process,
          hend.rest _ fun h => he (by cases h; rfl)]
        exact h.lists.process q
    · exact ⟨rfl, rfl, rfl, rfl, fun _ h => h, fun q => (hproc q).1, fun q => (hproc q).2.1,
        fun q => (hproc q).2.2.1, fun _ h => h, fun _ h => h⟩

theorem Exiting.refl (hc : Core E s) (hl : Lists s) : Exiting E s s := ⟨hc, hl, Frame.refl s⟩

/-- A thread that is killable stays so. -/
theorem stopThreads_killable (current : ℕ) (main : Option ℕ) (ts : List ℕ) :
    ∀ s : State, (s.thr t).state = .killable →
      ((stopThreads current main ts s).thr t).state = .killable := by
  induction ts with
  | nil => exact fun _ h => h
  | cons u us ih =>
    intro s h
    rw [stopThreads]
    apply ih
    split_ifs
    · unfold auThreadMoveToTrash
      dsimp only
      split_ifs
      · exact h
      · exact (frame_setState s u _ rfl (.inl rfl)).killable t h
    · exact h

/-- The first loop: no thread that it stops is waited for. -/
theorem Exiting.stop {s₀ : State} (current : ℕ) (main : Option ℕ) (ts : List ℕ)
    (hn : ∀ t ∈ ts, s₀.NotWaiting t)
    (hE : ∀ t ∈ ts, t ≠ current → E (.thread t) ∨ s₀.pending (.thread t) = []) :
    ∀ s, Exiting E s₀ s → Exiting E s₀ (stopThreads current main ts s) ∧
      ∀ t ∈ ts, t ≠ current → some t ≠ main →
        ((stopThreads current main ts s).thr t).state = .killable := by
  induction ts with
  | nil =>
    intro s h
    exact ⟨h, fun t ht => absurd ht (List.not_mem_nil)⟩
  | cons u us ih =>
    intro s h
    have hih := ih (fun t ht => hn t (List.mem_cons_of_mem u ht))
      fun t ht => hE t (List.mem_cons_of_mem u ht)
    rw [stopThreads]
    split_ifs with hu
    · obtain ⟨hx, hk⟩ := h.trash (hn u List.mem_cons_self) (hE u List.mem_cons_self hu.1)
      obtain ⟨hy, hall⟩ := hih _ hx
      refine ⟨hy, fun t ht htc htm => ?_⟩
      rcases List.mem_cons.mp ht with rfl | ht
      · exact stopThreads_killable current main us _ hk
      · exact hall t ht htc htm
    · obtain ⟨hy, hall⟩ := hih _ h
      refine ⟨hy, fun t ht htc htm => ?_⟩
      rcases List.mem_cons.mp ht with rfl | ht
      · exact absurd ⟨htc, htm⟩ hu
      · exact hall t ht htc htm

/-- The second loop: what is left to free is the thread that exits. -/
theorem Exiting.freeThreads {s₀ : State} (current : ℕ) (main : Option ℕ) (ts : List ℕ)
    (hn : s₀.NotWaiting current) (hE : E (.thread current)) :
    ∀ s, Exiting E s₀ s →
      (∀ t ∈ ts, t ≠ current → some t ≠ main → (s.thr t).state = .killable) →
      Exiting E s₀ (freeThreads current main ts s) ∧
        (s.pending (.thread current) = [] ∨
            current ∈ ts ∧ some current ≠ main ∧ (s.thr current).state ≠ .killable →
          (Termination.freeThreads current main ts s).pending (.thread current) = []) := by
  induction ts with
  | nil =>
    intro s h _
    refine ⟨h, fun hp => hp.resolve_right fun hm => absurd hm.1 List.not_mem_nil⟩
  | cons u us ih =>
    intro s h hall
    rw [Termination.freeThreads]
    split_ifs with hu hc
    · obtain ⟨hx, hp⟩ := ih s h fun t ht => hall t (List.mem_cons_of_mem u ht)
      refine ⟨hx, fun hor => hp (hor.imp_right fun ⟨hm, hmain, hk⟩ => ⟨?_, hmain, hk⟩)⟩
      rcases List.mem_cons.mp hm with rfl | hm
      · exact absurd hu (not_or.mpr ⟨hmain, hk⟩)
      · exact hm
    · subst hc
      obtain ⟨hx, -, hnil⟩ := h.free (t := u) hE
      obtain ⟨hy, hk⟩ := hx.trash hn (.inl hE)
      have hfree := ((Exiting.refl h.core h.lists).free (t := u) hE).1.frame
      have htrash := ((Exiting.refl hx.core hx.lists).trash (hx.frame.notWaiting hn) (.inl hE)).1
      obtain ⟨hz, hp⟩ := ih _ hy fun t ht htc htm =>
        (hfree.trans htrash.frame).killable t (hall t (List.mem_cons_of_mem u ht) htc htm)
      exact ⟨hz, fun _ => hp (.inl (htrash.frame.pending_nil hnil))⟩
    · exact absurd (hall u List.mem_cons_self hc fun h => hu (.inl h)) fun h => hu (.inr h)

end Xeneva.Termination
