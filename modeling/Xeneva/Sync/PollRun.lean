import Xeneva.Sync.Poll

/-!
# No lost wake-up

The invariant of a call says what its checks found, and that it stays so until the thread is
in the blocked or the sleep list, from where the entry in the wait queue wakes it. The
readiness test and the block are apart, so an event between them is not noticed: `PollOk`
leaves out exactly the events of a device that a call has checked and does not wait for yet.
-/

namespace Xeneva.Poll
open Base Sched

variable {s s' : PollState} {t : ℕ} {c : PollCall} {m m' : Queue → List ℕ} {st : State}

/-! ## Waking pollers -/

/-- The states after a woken thread was moved. -/
theorem wakeMove_state (q : Queue) (st : State) (t a : ℕ) (w : ThreadState) :
    ((schedLink .ready ((schedUnlink q st t).setState t w) t).thr a).state =
      if a = t then w else (st.thr a).state := by
  rw [(SameData.schedLink .ready _ t).state]
  unfold State.setState
  rw [setThr_thr]
  split_ifs
  · rfl
  · exact (SameData.schedUnlink q st t).state a

/-- A thread that polls and is blocked or asleep is moved to the ready list and gets a state to
run in. The function does nothing for any other thread. -/
theorem wakePoller_spec (h : SchedInv st m) (u : ℕ) :
    (∃ q, u ∈ m q ∧ (q = .blocked ∨ q = .sleep) ∧
        SchedInv (auThreadWakePoller st u) (moveTo m u q .ready) ∧
        ∀ a, ((auThreadWakePoller st u).thr a).state =
          if a = u then wokenState (st.thr a).state else (st.thr a).state) ∨
      ((st.thr u).blocked_on_poll = true → u ∉ m .blocked ∧ u ∉ m .sleep) ∧
        auThreadWakePoller st u = st := by
  unfold auThreadWakePoller
  dsimp only
  rw [h.members_eq, h.members_eq, setState_woken, setState_woken]
  split_ifs with h0 hb hs
  · refine .inr ⟨fun hf => ?_, rfl⟩
    have hz : u = 0 := h0.resolve_right fun hn => hn hf
    exact ⟨fun hm => h.ne_zero hm hz, fun hm => h.ne_zero hm hz⟩
  · refine .inl ⟨.blocked, hb, .inl rfl, h.wakeMove hb, fun a => ?_⟩
    rw [wakeMove_state, (SameData.schedUnlink .blocked st u).state]
    split_ifs with hau
    · rw [hau]
    · rfl
  · have hset : SchedInv (st.setThr u { st.thr u with sleepQuanta := 0 }) m :=
      h.setThr rfl rfl fun q hq => h.state q u hq
    refine .inl ⟨.sleep, hs, .inr rfl, hset.wakeMove hs, fun a => ?_⟩
    have hstate : ∀ x, ((st.setThr u { st.thr u with sleepQuanta := 0 }).thr x).state =
        (st.thr x).state := by
      intro x
      by_cases hx : x = u <;> simp [hx]
    rw [wakeMove_state, (SameData.schedUnlink .sleep _ u).state, hstate, hstate]
    split_ifs with hau
    · rw [hau]
    · rfl
  · exact .inr ⟨fun _ => ⟨hb, hs⟩, rfl⟩

/-- A wake keeps the threads that were woken. -/
theorem wakePoller_woken (h : SchedInv st m) (u : ℕ) (hw : Woken st t) :
    Woken (auThreadWakePoller st u) t := by
  rcases wakePoller_spec h u with ⟨q, hu, hq, h', hstate⟩ | ⟨-, hsame⟩
  · obtain ⟨ht, hrun⟩ := hw
    rw [h.members_eq] at ht
    have htu : t ≠ u := by
      intro htu
      have hqr := h.unique q .ready u hu (htu ▸ ht)
      rcases hq with hq | hq <;> simp [hq] at hqr
    constructor
    · rw [h'.members_eq]
      exact (h.toLinks.mem_moveTo hu .ready t).mpr (.inl ⟨htu, ht⟩)
    · unfold runnable at hrun ⊢
      rw [hstate, if_neg htu]
      exact hrun
  · rw [hsame]
    exact hw

theorem wakePoller_self (h : SchedInv st m) (hf : (st.thr t).blocked_on_poll = true)
    (ht : t ∈ m .blocked ∨ t ∈ m .sleep) : Woken (auThreadWakePoller st t) t := by
  rcases wakePoller_spec h t with ⟨q, hu, hq, h', hstate⟩ | ⟨hno, -⟩
  · constructor
    · rw [h'.members_eq]
      exact (h.toLinks.mem_moveTo hu .ready t).mpr (.inr ⟨rfl, rfl⟩)
    · unfold runnable
      rw [hstate, if_pos rfl]
      have hs := h.state q t hu
      rcases hq with hq | hq <;> subst hq <;> simp [admits] at hs <;>
        rcases hs with hs | hs <;> simp [hs, wokenState]
  · exact absurd ht (not_or.mpr (hno hf))

theorem wakeAll_inv (h : SchedInv st m) (q : List ℕ) (X : ℕ → Prop) :
    ∃ m', SchedInv (auWaitQueueWake st q) m' ∧ Kept X m m' := by
  induction q generalizing st m with
  | nil => exact ⟨m, h, .refl X m⟩
  | cons u q ih =>
    obtain ⟨m₁, h₁, hk₁⟩ := h.wakePoller u X
    obtain ⟨m₂, h₂, hk₂⟩ := ih h₁
    exact ⟨m₂, h₂, hk₁.trans hk₂⟩

theorem wakeAll_untouched (st : State) (q : List ℕ) : Untouched st (auWaitQueueWake st q) := by
  induction q generalizing st with
  | nil => exact .refl st
  | cons u q ih => exact (Untouched.wakePoller st u).trans (ih _)

theorem wakeAll_keeps (h : SchedInv st m) (q : List ℕ) (hw : Woken st t) :
    Woken (auWaitQueueWake st q) t := by
  induction q generalizing st m with
  | nil => exact hw
  | cons u q ih =>
    obtain ⟨m₁, h₁, -⟩ := h.wakePoller u fun _ => False
    exact ih h₁ (wakePoller_woken h u hw)

/-- Every poller of the queue that is blocked or asleep is woken. -/
theorem wakeAll_woken (h : SchedInv st m) {q : List ℕ} (htq : t ∈ q)
    (hf : (st.thr t).blocked_on_poll = true) (ht : t ∈ m .blocked ∨ t ∈ m .sleep) :
    Woken (auWaitQueueWake st q) t := by
  induction q generalizing st m with
  | nil => cases htq
  | cons u q ih =>
    obtain ⟨m₁, h₁, -⟩ := h.wakePoller u fun _ => False
    by_cases htu : t = u
    · subst htu
      exact wakeAll_keeps h₁ q (wakePoller_self h hf ht)
    · have hq := (List.mem_cons.mp htq).resolve_left htu
      have hf' : ((auThreadWakePoller st u).thr t).blocked_on_poll = true :=
        ((Untouched.wakePoller st u).poll t).trans hf
      rcases wakePoller_spec h u with ⟨k, hu, -, h', -⟩ | ⟨-, hsame⟩
      · refine ih h' hq hf' (ht.imp (fun hb => ?_) fun hs => ?_)
        · exact (h.toLinks.mem_moveTo hu .blocked t).mpr (.inl ⟨htu, hb⟩)
        · exact (h.toLinks.mem_moveTo hu .sleep t).mpr (.inl ⟨htu, hs⟩)
      · have hrest := ih h hq hf ht
        show Woken (auWaitQueueWake (auThreadWakePoller st u) q) t
        rw [hsame]
        exact hrest

/-! ## The invariant -/

/-- The steps before the thread is blocked or asleep. -/
def Pc.beforePark : Pc → Bool
  | .register | .test _ | .decide | .park _ => true
  | _ => false

/-- The steps at which `blocked_on_poll` is set. -/
def Pc.flagged : Pc → Bool
  | .park _ | .yield | .resume => true
  | _ => false

/-- The steps after all descriptors were checked. -/
def Pc.checkedAll : Pc → Bool
  | .decide | .park _ | .yield | .resume => true
  | _ => false

theorem Pc.flagged_of_waiting {p : Pc} (hp : p.beforePark = false) (hf : p ≠ .finish) :
    p.flagged = true := by
  cases p with
  | yield => rfl
  | resume => rfl
  | finish => exact absurd rfl hf
  | register => cases hp
  | test d => cases hp
  | decide => cases hp
  | park ms => cases hp

/-- A device the descriptor stands for has the thread in its wait queue. -/
def Entered (s : PollState) (t : ℕ) (f : PollFd) : Prop :=
  0 ≤ f.fd → ∀ d, s.files t f.fd = some (.device d) → t ∈ s.queue d

structure CallInv (s : PollState) (m : Queue → List ℕ) (t : ℕ) (c : PollCall) : Prop where
  place : ∃ q, q ≠ Queue.trash ∧ t ∈ m q
  ready : c.pc ≠ .yield → c.pc ≠ .resume → t ∈ m .ready
  flag : c.pc.flagged → (s.kern.thr t).blocked_on_poll = true
  waits : c.pc.flagged → c.ready = 0 ∧ c.timeout ≠ 0
  all : c.pc.checkedAll → c.todo = [] ∧ c.config = false
  checked : ∀ f ∈ c.checked, Entered s t f
  todo : c.config = false → ∀ f ∈ c.todo, Entered s t f
  testing : ∀ d, c.pc = .test d → ∃ f fs, c.todo = f :: fs ∧
    s.files t f.fd = some (.device d) ∧ Entered s t f
  quiet : c.ready = 0 → c.timeout ≠ 0 → (c.pc.beforePark ∨ t ∉ m .ready) →
    ∀ f ∈ c.checked, s.isReady t f = false

/-- What a call relies on may change as long as its checks stay right. -/
theorem CallInv.frame (h : CallInv s m t c) (hkept : ∀ q, t ∈ m q → t ∈ m' q ∨ t ∈ m' .ready)
    (hflag : (s'.kern.thr t).blocked_on_poll = (s.kern.thr t).blocked_on_poll)
    (hfiles : ∀ f ∈ c.fds, s'.files t f.fd = s.files t f.fd)
    (hqueue : ∀ d, t ∈ s.queue d → t ∈ s'.queue d)
    (hquiet : c.ready = 0 → c.timeout ≠ 0 → (c.pc.beforePark ∨ t ∉ m' .ready) →
      ∀ f ∈ c.checked, s.isReady t f = false → s'.isReady t f = false) : CallInv s' m' t c := by
  have hentered : ∀ f ∈ c.fds, Entered s t f → Entered s' t f := by
    intro f hf he h0 d hd
    rw [hfiles f hf] at hd
    exact hqueue d (he h0 d hd)
  have hready : t ∈ m .ready → t ∈ m' .ready := fun hr => (hkept .ready hr).elim id id
  have hplace : ∃ q, q ≠ Queue.trash ∧ t ∈ m' q := by
    obtain ⟨q, hq, ht⟩ := h.place
    rcases hkept q ht with ht | ht
    · exact ⟨q, hq, ht⟩
    · exact ⟨.ready, nofun, ht⟩
  have hleft : ∀ f ∈ c.checked, f ∈ c.fds := fun f hf => List.mem_append_left _ hf
  have hright : ∀ f ∈ c.todo, f ∈ c.fds := fun f hf => List.mem_append_right _ hf
  refine ⟨hplace, fun h1 h2 => hready (h.ready h1 h2), fun hp => hflag.trans (h.flag hp),
    h.waits, h.all, fun f hf => hentered f (hleft f hf) (h.checked f hf),
    fun hc f hf => hentered f (hright f hf) (h.todo hc f hf), fun d hd => ?_,
    fun h0 ht hp f hf => ?_⟩
  · obtain ⟨f, fs, htodo, hfile, he⟩ := h.testing d hd
    have hf : f ∈ c.fds := hright f (by simp [htodo])
    exact ⟨f, fs, htodo, (hfiles f hf).trans hfile, hentered f hf he⟩
  · refine hquiet h0 ht hp f hf (h.quiet h0 ht (hp.imp id fun hn => ?_) f hf)
    exact fun hr => hn (hready hr)

structure PollInv (s : PollState) (m : Queue → List ℕ) : Prop where
  sched : SchedInv s.kern m
  calls : ∀ t c, s.calls t = some c → CallInv s m t c

/-- Only the scheduler state changed, and no thread in a call was taken out of the ready list. -/
theorem CallInv.kern {k : State} (h : CallInv s m t c)
    (hkept : ∀ q, t ∈ m q → t ∈ m' q ∨ t ∈ m' .ready)
    (hflag : (k.thr t).blocked_on_poll = (s.kern.thr t).blocked_on_poll) :
    CallInv { s with kern := k } m' t c :=
  h.frame hkept hflag (fun _ _ => rfl) (fun _ hd => hd) fun _ _ _ _ _ hq => hq

theorem isReady_congr {f : PollFd} (hmask : s'.mask = s.mask)
    (hfile : s'.files t f.fd = s.files t f.fd) : s'.isReady t f = s.isReady t f := by
  unfold PollState.isReady PollState.fileMask
  simp only [hmask, hfile]

/-- The calls a thread does not make do not matter to its own. -/
theorem CallInv.congr (h : CallInv s m t c) (hkern : s'.kern = s.kern)
    (hmask : s'.mask = s.mask) (hqueue : s'.queue = s.queue) (hfiles : s'.files = s.files) :
    CallInv s' m t c := by
  apply h.frame
  · exact fun _ ht => .inl ht
  · rw [hkern]
  · exact fun _ _ => by rw [hfiles]
  · exact fun _ hd => hqueue ▸ hd
  · intro _ _ _ f _ hq
    rw [isReady_congr hmask (by rw [hfiles])]
    exact hq

/-- One thread's call goes on; those of the other threads are as before. -/
theorem PollInv.setCall (hs : SchedInv s.kern m) (hself : CallInv s m t c)
    (hother : ∀ u d, u ≠ t → s.calls u = some d → CallInv s m u d) :
    PollInv (s.setCall t c) m where
  sched := hs
  calls u d hu := by
    unfold PollState.setCall at hu
    dsimp only at hu
    by_cases hut : u = t
    · subst hut
      rw [Function.update_self] at hu
      cases hu
      exact hself.congr rfl rfl rfl rfl
    · rw [Function.update_of_ne hut] at hu
      exact (hother u d hut hu).congr rfl rfl rfl rfl

/-! ## The steps of a call -/

/-- The loop goes on behind a descriptor it has registered and checked. -/
theorem CallInv.next (h : CallInv s m t c) (hr : t ∈ m .ready) (hpc : c.pc.beforePark)
    {f : PollFd} {fs : List PollFd} (htodo : c.todo = f :: fs) (he : Entered s t f) {mask : UInt16}
    (hmask : mask &&& f.wanted = 0 → s.isReady t f = false) : CallInv s m t (c.next mask) := by
  have hnext : c.next mask = { c with
      checked := c.checked ++ [f]
      todo := fs
      ready := if mask &&& f.wanted ≠ 0 then c.ready + 1 else c.ready
      pc := .register } := by
    unfold PollCall.next
    rw [htodo]
  have hchecked : ∀ g, g ∈ c.checked ++ [f] ↔ g ∈ c.checked ∨ g = f := by simp
  rw [hnext]
  refine ⟨h.place, fun _ _ => hr, nofun, nofun, nofun, fun g hg => ?_, fun hc g hg => ?_, nofun,
    fun h0 ht _ g hg => ?_⟩
  · rcases (hchecked g).mp hg with hg | hg
    · exact h.checked g hg
    · exact hg ▸ he
  · refine h.todo hc g ?_
    rw [htodo]
    exact List.mem_cons_of_mem f hg
  · dsimp only at h0
    have hzero : mask &&& f.wanted = 0 := by
      by_contra hne
      rw [if_pos hne] at h0
      omega
    rw [if_neg (not_not.mpr hzero)] at h0
    rcases (hchecked g).mp hg with hg | hg
    · exact h.quiet h0 ht (.inl hpc) g hg
    · rw [hg]
      exact hmask hzero

theorem PollCall.skip_eq (hpc : c.pc = .register) : c.skip = c.next 0 := by
  unfold PollCall.skip PollCall.next
  split
  · rfl
  · simp [← hpc]

theorem isReady_eq_false (s : PollState) (t : ℕ) {f : PollFd}
    (h : s.fileMask (s.files t f.fd) &&& f.wanted = 0) : s.isReady t f = false := by
  simp [PollState.isReady, h]

/-- The entry of a call goes into the wait queue; those of the others stay there. -/
theorem PollInv.register (h : PollInv s m) (hc : s.calls t = some c) (hr : t ∈ m .ready)
    (hpc : c.pc = .register) {f : PollFd} {fs : List PollFd} (htodo : c.todo = f :: fs) {d : ℕ}
    (hfile : s.files t f.fd = some (.device d)) {alloc : Bool} (halloc : c.config → alloc) :
    PollInv ((auPollWait s t c d alloc).1.setCall t
      { (auPollWait s t c d alloc).2 with pc := .test d }) m := by
  have hcall := h.calls t c hc
  unfold auPollWait
  split_ifs with hno
  · -- only the first turn of the outer loop registers
    have hconfig : c.config = false := by
      rcases hno with hno | hno
      · exact Bool.not_eq_true _ ▸ hno
      · by_contra hcon
        exact hno (halloc (Bool.not_eq_false _ ▸ hcon))
    refine PollInv.setCall h.sched ?_ fun u e _ hu => h.calls u e hu
    exact ⟨hcall.place, fun _ _ => hr, nofun, nofun, nofun, hcall.checked, hcall.todo,
      fun e he => ⟨f, fs, htodo, by cases he; exact hfile, hcall.todo hconfig f (by simp [htodo])⟩,
      fun h0 ht _ => hcall.quiet h0 ht (.inl (by rw [hpc]; rfl))⟩
  · have hmem : ∀ u e, u ∈ s.queue e → u ∈ Function.update s.queue d (t :: s.queue d) e := by
      intro u e hu
      by_cases hed : e = d
      · subst hed
        rw [Function.update_self]
        exact List.mem_cons_of_mem t hu
      · rwa [Function.update_of_ne hed]
    have hframe : ∀ u e, CallInv s m u e →
        CallInv { s with queue := Function.update s.queue d (t :: s.queue d) } m u e :=
      fun u e hi => hi.frame (fun _ hu => .inl hu) rfl (fun _ _ => rfl) (hmem u)
        fun _ _ _ _ _ hq => hq
    have hself := hframe t c hcall
    refine PollInv.setCall h.sched ?_ fun u e _ hu => hframe u e (h.calls u e hu)
    refine ⟨hself.place, fun _ _ => hr, nofun, nofun, nofun, hself.checked, hself.todo,
      fun e he => ⟨f, fs, htodo, by cases he; exact hfile, fun _ e' he' => ?_⟩,
      fun h0 ht _ => hself.quiet h0 ht (.inl (by rw [hpc]; rfl))⟩
    have hed : e' = d := by
      have hsame := hfile.symm.trans he'
      simpa using hsame.symm
    dsimp only
    rw [hed, Function.update_self]
    exact List.mem_cons_self

/-- The thread blocks or goes to sleep; its flag is set and its descriptors are quiet. -/
theorem PollInv.park (h : PollInv s m) (hc : s.calls t = some c) (hr : t ∈ m .ready) {ms : UInt64}
    (hpc : c.pc = .park ms) {k : State} {q : Queue} (hq : q ≠ .trash)
    (hk : SchedInv k (moveTo m t .ready q)) (hun : Untouched s.kern k) :
    PollInv ({ s with kern := k }.setCall t { c with pc := .yield }) (moveTo m t .ready q) := by
  have hcall := h.calls t c hc
  refine PollInv.setCall hk ?_ fun u e hut hu => (h.calls u e hu).kern
    (h.sched.toLinks.kept_moveTo hr u hut) (hun.poll u)
  have hpark : c.pc.flagged = true := by rw [hpc]; rfl
  have hplace : t ∈ moveTo m t .ready q q :=
    (h.sched.toLinks.mem_moveTo hr q t).mpr (.inr ⟨rfl, rfl⟩)
  exact ⟨⟨q, hq, hplace⟩, fun hy => absurd rfl hy, fun _ => (hun.poll t).trans (hcall.flag hpark),
    fun _ => hcall.waits hpark, fun _ => hcall.all (by rw [hpc]; rfl), hcall.checked, hcall.todo,
    nofun, fun h0 ht _ => hcall.quiet h0 ht (.inl (by rw [hpc]; rfl))⟩

/-- The thread writes its flag, which no list and no other call depends on. -/
theorem PollInv.setFlag (h : PollInv s m) (t : ℕ) (on : Bool) {c : PollCall}
    (hself : CallInv { s with kern := s.kern.setThr t { s.kern.thr t with
      blocked_on_poll := on } } m t c) :
    PollInv ({ s with kern := s.kern.setThr t { s.kern.thr t with
      blocked_on_poll := on } }.setCall t c) m := by
  have hset : SchedInv (s.kern.setThr t { s.kern.thr t with blocked_on_poll := on }) m :=
    h.sched.setThr rfl rfl fun q hq => h.sched.state q t hq
  refine PollInv.setCall hset hself fun u d hut hu => ?_
  exact (h.calls u d hu).kern (fun _ hm => .inl hm) (by simp [hut])

/-- The end of a call takes its own entries out of the queues. -/
theorem mem_auWaitQueueRemove {u : ℕ} (hut : u ≠ t) (chain : List ℕ) (queue : ℕ → List ℕ) (d : ℕ)
    (hu : u ∈ queue d) : u ∈ chain.foldl (auWaitQueueRemove t) queue d := by
  induction chain generalizing queue with
  | nil => exact hu
  | cons e chain ih =>
    apply ih
    unfold auWaitQueueRemove
    by_cases hde : d = e
    · subst hde
      rw [Function.update_self]
      exact (List.mem_erase_of_ne hut).mpr hu
    · rwa [Function.update_of_ne hde]

theorem PollInv.finish (h : PollInv s m) (t : ℕ) (chain : List ℕ) :
    PollInv { s with
      queue := chain.foldl (auWaitQueueRemove t) s.queue
      calls := Function.update s.calls t none } m where
  sched := h.sched
  calls u d hu := by
    dsimp only at hu
    by_cases hut : u = t
    · subst hut
      rw [Function.update_self] at hu
      cases hu
    · rw [Function.update_of_ne hut] at hu
      exact (h.calls u d hu).frame (fun _ hq => .inl hq) rfl (fun _ _ => rfl)
        (fun e he => mem_auWaitQueueRemove hut chain s.queue e he) fun _ _ _ _ _ hq => hq

/-- One step of a call of the running thread. -/
theorem PollInv.callStep (h : PollInv s m) (hc : s.calls t = some c)
    (hcur : s.kern.current_thread = t) (hrun : c.pc = .yield ∨ t ∈ m .ready) {alloc : Bool}
    (halloc : c.pc = .register → c.config → alloc) (now now' : UInt64) :
    ∃ m', PollInv (auPollStep s t c alloc now now') m' := by
  have hcall := h.calls t c hc
  have hothers : ∀ u d, u ≠ t → s.calls u = some d → CallInv s m u d :=
    fun u d _ hu => h.calls u d hu
  unfold auPollStep
  split
  · next hpc =>
    have hr := hrun.resolve_left (by simp [hpc])
    have hbefore : c.pc.beforePark = true := by rw [hpc]; rfl
    split
    · next htodo =>
      refine ⟨m, PollInv.setCall h.sched ?_ hothers⟩
      exact ⟨hcall.place, fun _ _ => hr, nofun, nofun, fun _ => ⟨htodo, rfl⟩, hcall.checked,
        fun _ f hf => (by rw [htodo] at hf; cases hf), nofun,
        fun h0 ht _ => hcall.quiet h0 ht (.inl hbefore)⟩
    · next f fs htodo =>
      split_ifs with hneg
      · refine ⟨m, PollInv.setCall h.sched ?_ hothers⟩
        rw [PollCall.skip_eq hpc]
        refine hcall.next hr hbefore htodo (fun h0 => by omega) fun _ => ?_
        have hneg' : ¬ 0 ≤ f.fd := by omega
        simp [PollState.isReady, hneg']
      · split
        · next d hfile =>
          exact ⟨m, h.register hc hr hpc htodo hfile (halloc hpc)⟩
        · next file hfile =>
          refine ⟨m, PollInv.setCall h.sched ?_ hothers⟩
          exact hcall.next hr hbefore htodo (fun _ d hd => absurd hd (hfile d))
            fun hzero => isReady_eq_false s t hzero
  · next d hpc =>
    have hr := hrun.resolve_left (by simp [hpc])
    have hbefore : c.pc.beforePark = true := by rw [hpc]; rfl
    obtain ⟨f, fs, htodo, hfile, he⟩ := hcall.testing d hpc
    refine ⟨m, PollInv.setCall h.sched ?_ hothers⟩
    refine hcall.next hr hbefore htodo he fun hzero => ?_
    apply isReady_eq_false
    rw [hfile]
    exact hzero
  · next hpc =>
    have hr := hrun.resolve_left (by simp [hpc])
    have hall := hcall.all (by rw [hpc]; rfl)
    generalize (if c.deadline > now' then c.deadline - now' + 999 / 1000 else 1) = ms
    split_ifs with hend
    · refine ⟨m, PollInv.setCall h.sched ?_ hothers⟩
      exact ⟨hcall.place, fun _ _ => hr, nofun, nofun, nofun, hcall.checked, hcall.todo, nofun,
        fun _ _ hp => absurd hr (hp.resolve_left nofun)⟩
    · obtain ⟨h0, hend⟩ := not_or.mp hend
      obtain ⟨ht, -⟩ := not_or.mp hend
      have hzero : c.ready = 0 := by omega
      refine ⟨m, h.setFlag t true ?_⟩
      exact ⟨hcall.place, fun _ _ => hr, fun _ => by simp, fun _ => ⟨hzero, ht⟩, fun _ => hall,
        hcall.checked, hcall.todo, nofun,
        fun _ _ _ => hcall.quiet hzero ht (.inl (by rw [hpc]; rfl))⟩
  · next ms hpc =>
    have hr := hrun.resolve_left (by simp [hpc])
    split_ifs with hpos
    · exact ⟨_, h.park hc hr hpc (by simp) (h.sched.sleep hr ms now) (.sleepThread s.kern t ms now)⟩
    · exact ⟨_, h.park hc hr hpc (by simp) (h.sched.block hr) (.blockThread s.kern t)⟩
  · next hpc =>
    have hflagged : c.pc.flagged = true := by rw [hpc]; rfl
    have hkill : (s.kern.thr s.kern.current_thread).state ≠ .killable := by
      obtain ⟨q, hq, hm⟩ := hcall.place
      rw [hcur]
      exact fun hk => hq ((h.sched.queue_of hm).2.2.2.mp hk)
    have hun := Untouched.scheduleNext s.kern
    refine ⟨m, PollInv.setCall (h.sched.scheduleNext hkill) ?_ fun u d hut hu =>
      (h.calls u d hu).kern (fun _ hm => .inl hm) (hun.poll u)⟩
    exact ⟨hcall.place, fun _ hp => absurd rfl hp,
      fun _ => (hun.poll t).trans (hcall.flag hflagged),
      fun _ => hcall.waits hflagged, fun _ => hcall.all (by rw [hpc]; rfl), hcall.checked,
      hcall.todo, nofun, fun h0 ht hp => hcall.quiet h0 ht (.inr (hp.resolve_left nofun))⟩
  · next hpc =>
    have hr := hrun.resolve_left (by simp [hpc])
    obtain ⟨htodo, hconfig⟩ := hcall.all (by rw [hpc]; rfl)
    refine ⟨m, h.setFlag t false ?_⟩
    -- every descriptor is to be checked again, and all of them are registered
    refine ⟨hcall.place, fun _ _ => hr, nofun, nofun, nofun, nofun, fun _ f hf => ?_, nofun, ?_⟩
    · have hf' : f ∈ c.checked := by simpa [PollCall.fds, htodo] using hf
      exact hcall.checked f hf'
    · exact fun _ _ _ f hf => by cases hf
  · exact ⟨m, h.finish t c.chain⟩

/-! ## The other steps -/

/-- The event would find a descriptor that the call has checked and found not ready, before
the thread is in a list the wake looks into. -/
def PollCall.atRisk (s : PollState) (t : ℕ) (c : PollCall) (d : ℕ) (mask : UInt16) : Prop :=
  c.ready = 0 ∧ c.timeout ≠ 0 ∧ c.pc.beforePark = true ∧
    ∃ f ∈ c.checked, 0 ≤ f.fd ∧ s.files t f.fd = some (.device d) ∧ mask &&& f.wanted ≠ 0

instance (s : PollState) (t : ℕ) (c : PollCall) (d : ℕ) (mask : UInt16) :
    Decidable (c.atRisk s t d mask) := inferInstanceAs (Decidable (_ ∧ _ ∧ _ ∧ _))

/-- No event falls between a check and the block that follows it, `kmalloc` has room for the
entries, no polled descriptor is opened anew, and the scheduler is called as it relies on. -/
def PollOk (s : PollState) : PollAct → Prop
  | .pollStep alloc _ _ =>
    ∀ c ∈ s.calls s.kern.current_thread, c.pc = .register → c.config = true → alloc = true
  | .event d mask => ∀ t ∈ s.kern.live, ∀ c ∈ s.calls t, ¬ c.atRisk s t d mask
  | .setFile t fd _ => ∀ c ∈ s.calls t, ∀ f ∈ c.fds, f.fd ≠ fd
  | .sched act => SchedSafe s.kern act
  | _ => True

instance (s : PollState) : DecidablePred (PollOk s) := fun act => by
  cases act <;> unfold PollOk <;> infer_instance

/-- Bits that a device gains or keeps do not make a descriptor ready that does not want them. -/
theorem isReady_update {d : ℕ} {mask : UInt16} {f : PollFd} (hq : s.isReady t f = false)
    (hwant : 0 ≤ f.fd → s.files t f.fd = some (.device d) → s.mask d &&& f.wanted = 0 →
      mask &&& f.wanted = 0) :
    { s with mask := Function.update s.mask d mask }.isReady t f = false := by
  unfold PollState.isReady at hq ⊢
  simp only [decide_eq_false_iff_not, not_and, not_not] at hq ⊢
  intro h0
  have hzero := hq h0
  unfold PollState.fileMask at hzero ⊢
  split at hzero
  · exact hzero
  · exact hzero
  · next e he =>
    by_cases hed : e = d
    · subst hed
      dsimp only
      rw [Function.update_self]
      exact hwant h0 he hzero
    · dsimp only
      rwa [Function.update_of_ne hed]

theorem PollInv.drain (h : PollInv s m) (d : ℕ) (mask : UInt16) :
    PollInv { s with mask := Function.update s.mask d (s.mask d &&& mask) } m where
  sched := h.sched
  calls t c hc := by
    refine (h.calls t c hc).frame (fun _ hm => .inl hm) rfl (fun _ _ => rfl) (fun _ hq => hq)
      fun _ _ _ f _ hq => isReady_update hq fun _ _ hzero => ?_
    rw [UInt16.and_comm (s.mask d), UInt16.and_assoc, hzero, UInt16.and_zero]

theorem uint16_or_and (a b c : UInt16) : (a ||| b) &&& c = a &&& c ||| b &&& c :=
  UInt16.toBitVec_inj.1 BitVec.and_or_distrib_right

/-- An event wakes the pollers that wait for it, and none checked its device before that. -/
theorem PollInv.event (h : PollInv s m) {d : ℕ} {mask : UInt16} (hok : PollOk s (.event d mask)) :
    ∃ m', PollInv (pollMachine s (.event d mask)) m' := by
  obtain ⟨m', h', hkept⟩ := wakeAll_inv h.sched (s.queue d) fun _ => False
  have hun := wakeAll_untouched s.kern (s.queue d)
  refine ⟨m', h', fun t c hc => ?_⟩
  have hcall := h.calls t c hc
  obtain ⟨q, hq, hplace⟩ := hcall.place
  have hlive : t ∈ s.kern.live := (h.sched.live t).mpr ⟨q, hplace⟩
  have hsafe := hok t hlive c hc
  refine hcall.frame (hkept t id) (hun.poll t) (fun _ _ => rfl) (fun _ hu => hu)
    fun h0 ht hp f hf hquiet => isReady_update hquiet fun hfd hdev hzero => ?_
  have hgain : mask &&& f.wanted = 0 := by
    by_contra hne
    have hpark : c.pc.beforePark = false := by
      by_contra hb
      exact hsafe ⟨h0, ht, Bool.not_eq_false _ ▸ hb, f, hf, hfd, hdev, hne⟩
    have hout : t ∉ m' .ready := hp.resolve_left (by simp [hpark])
    have hold : t ∉ m .ready := fun hr => hout ((hkept t id .ready hr).elim id id)
    -- the thread waits for the device, so the wake would have found it
    have hpc : c.pc.flagged = true := by
      refine Pc.flagged_of_waiting hpark fun hfin => hold (hcall.ready ?_ ?_)
      · simp [hfin]
      · simp [hfin]
    have hwait : t ∈ m .blocked ∨ t ∈ m .sleep := by
      cases q
      · exact absurd hplace hold
      · exact .inl hplace
      · exact absurd rfl hq
      · exact .inr hplace
    have hwoken := wakeAll_woken h.sched (hcall.checked f hf hfd d hdev) (hcall.flag hpc) hwait
    have hr := hwoken.1
    rw [h'.members_eq] at hr
    exact hout hr
  rw [uint16_or_and, hzero, hgain]
  rfl

/-- A new call has checked nothing yet. -/
theorem PollInv.newCall (h : PollInv s m) (hr : t ∈ m .ready) (fds : List PollFd) (timeout : Int)
    (deadline : UInt64) :
    PollInv (s.setCall t { todo := fds, timeout := timeout, deadline := deadline }) m := by
  refine PollInv.setCall h.sched ?_ fun u e _ hu => h.calls u e hu
  exact ⟨⟨.ready, nofun, hr⟩, fun _ _ => hr, nofun, nofun, nofun, nofun, nofun, nofun,
    fun _ _ _ f hf => by cases hf⟩

theorem create_poll (u : ℕ) (hlive : t ∈ st.live) :
    ((Sched.step st (.create u)).thr t).blocked_on_poll = (st.thr t).blocked_on_poll := by
  unfold Sched.step
  dsimp only
  split_ifs with hu
  · rfl
  · have htu : t ≠ u := fun he => hu (.inr (he ▸ hlive))
    unfold auCreateKthread auThreadInsert
    have hpoll := congrArg AA64Thread.blocked_on_poll ((SameData.schedLink .ready
      { st.setThr u { thread_id := st.thread_id } with
        live := u :: st.live, thread_id := st.thread_id + 1 } u).data t)
    simpa [AA64Thread.data, htu] using hpoll

/-- Other code of the kernel takes no thread out of the ready list that is inside `AuPoll`. -/
theorem PollInv.schedStep (h : PollInv s m) {act : Act} (hout : s.outside act = true)
    (hsafe : SchedSafe s.kern act) :
    ∃ m', PollInv { s with kern := Sched.step s.kern act } m' := by
  obtain ⟨m', h', hkept⟩ := h.sched.step_kept hsafe
  refine ⟨m', h', fun t c hc => ?_⟩
  have hcall := h.calls t c hc
  have hstays : ¬ act.Takes s.kern t := by
    intro htakes
    have hc' : s.calls t = some c := hc
    cases act with
    | block u =>
      rw [show t = u from htakes] at hc'
      simp [PollState.outside, hc'] at hout
    | sleep u ms now =>
      rw [show t = u from htakes] at hc'
      simp [PollState.outside, hc'] at hout
    | waitForTermination id found =>
      rw [show t = s.kern.current_thread from htakes] at hc'
      simp [PollState.outside, hc'] at hout
    | moveToTrash u => cases hout
    | exitSubThread found threads u id => cases hout
    | clean u => cases hout
    | _ => cases htakes
  have hflag : ((Sched.step s.kern act).thr t).blocked_on_poll =
      (s.kern.thr t).blocked_on_poll := by
    by_cases hmove : act.movesOnly = true
    · exact (Untouched.step s.kern hmove).poll t
    · cases act with
      | create u =>
        obtain ⟨q, -, hplace⟩ := hcall.place
        exact create_poll u ((h.sched.live t).mpr ⟨q, hplace⟩)
      | moveToTrash u => cases hout
      | exitSubThread found threads u id => cases hout
      | clean u => cases hout
      | setPoll u on => cases hout
      | setEDF u waiting release deadline => cases hout
      | _ => exact absurd rfl hmove
  exact hcall.kern (hkept t hstays) hflag

theorem PollInv.step (h : PollInv s m) {act : PollAct} (hok : PollOk s act) :
    ∃ m', PollInv (pollMachine s act) m' := by
  cases act with
  | call fds timeout now =>
    by_cases hc : s.kern.current_thread ∈ s.kern.members .ready ∧
        s.calls s.kern.current_thread = none ∧ fds.length ≤ pollMaxFdMonitor
    · have hr := hc.1
      rw [h.sched.members_eq] at hr
      refine ⟨m, ?_⟩
      simp only [pollMachine, if_pos hc]
      exact h.newCall hr fds timeout _
    · refine ⟨m, ?_⟩
      simp only [pollMachine, if_neg hc]
      exact h
  | pollStep alloc now now' =>
    unfold pollMachine
    dsimp only
    split
    · next c hc =>
      split_ifs with hrun
      · rw [h.sched.members_eq] at hrun
        exact h.callStep hc rfl hrun (hok c hc) now now'
      · exact ⟨m, h⟩
    · exact ⟨m, h⟩
  | event d mask => exact h.event hok
  | drain d mask => exact ⟨m, h.drain d mask⟩
  | setFile t fd file =>
    refine ⟨m, h.sched, fun u c hc => ?_⟩
    have hcall := h.calls u c hc
    have hsame : ∀ f ∈ c.fds, Function.update s.files t (Function.update (s.files t) fd file) u
        f.fd = s.files u f.fd := by
      intro f hf
      by_cases hut : u = t
      · subst hut
        rw [Function.update_self, Function.update_of_ne (hok c hc f hf)]
      · rw [Function.update_of_ne hut]
    refine hcall.frame (fun _ hm => .inl hm) rfl hsame (fun _ hq => hq) fun _ _ _ f hf hq => ?_
    have hfile := hsame f (List.mem_append_left _ hf)
    have hcongr : (pollMachine s (.setFile t fd file)).isReady u f = s.isReady u f :=
      isReady_congr rfl hfile
    rw [hcongr]
    exact hq
  | sched act =>
    unfold pollMachine
    dsimp only
    split_ifs with hout
    · exact h.schedStep hout hok
    · exact ⟨m, h⟩

end Xeneva.Poll
