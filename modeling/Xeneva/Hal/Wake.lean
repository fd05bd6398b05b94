import Xeneva.Hal.SchedLists

/-!
# What moving threads leaves untouched

Most scheduler functions move threads between the lists and write their states. They free
no thread, end none, and keep its number, its place in a poll and its reservation.
-/

namespace Xeneva.Sched

/-- A thread without what the scheduler writes when it moves the thread. -/
def AA64Thread.rest (c : AA64Thread) : AA64Thread :=
  { c with state := .ready, next := 0, prev := 0, sleepQuanta := 0, sleep_until_us := 0,
           waitlist := [], edf_waiting := false, edf_release_us := 0, edf_deadline_us := 0 }

structure Untouched (st st' : State) : Prop where
  live : st'.live = st.live
  rest : ∀ a, (st'.thr a).rest = (st.thr a).rest
  killable : ∀ a, (st'.thr a).state = .killable → (st.thr a).state = .killable

variable {st st' : State}

namespace Untouched

theorem refl (st : State) : Untouched st st := ⟨rfl, fun _ => rfl, fun _ h => h⟩

theorem trans {st'' : State} (h : Untouched st st') (h' : Untouched st' st'') :
    Untouched st st'' where
  live := h'.live.trans h.live
  rest a := (h'.rest a).trans (h.rest a)
  killable a ha := h.killable a (h'.killable a ha)

theorem enabled (h : Untouched st st') (a : ℕ) :
    (st'.thr a).edf_enabled = (st.thr a).edf_enabled :=
  (congrArg AA64Thread.edf_enabled (h.rest a) :)

theorem poll (h : Untouched st st') (a : ℕ) :
    (st'.thr a).blocked_on_poll = (st.thr a).blocked_on_poll :=
  (congrArg AA64Thread.blocked_on_poll (h.rest a) :)

theorem of_sameData (h : SameData st st') : Untouched st st' where
  live := h.live
  rest a := (congrArg AA64Thread.rest (h.data a) :)
  killable a ha := by rwa [h.state] at ha

theorem setThr (st : State) (t : ℕ) (c : AA64Thread) (hr : c.rest = (st.thr t).rest)
    (hk : c.state = .killable → (st.thr t).state = .killable) : Untouched st (st.setThr t c) where
  live := rfl
  rest a := by
    by_cases hat : a = t
    · rw [setThr_thr, if_pos hat, hat]
      exact hr
    · rw [setThr_thr, if_neg hat]
  killable a ha := by
    by_cases hat : a = t
    · rw [setThr_thr, if_pos hat] at ha
      rw [hat]
      exact hk ha
    · rwa [setThr_thr, if_neg hat] at ha

theorem setState (st : State) (t : ℕ) (k : ThreadState) (hk : k ≠ .killable) :
    Untouched st (st.setState t k) :=
  setThr st t _ rfl fun h => absurd h hk

theorem move (q r : Queue) (st : State) (t : ℕ) :
    Untouched st (schedLink r (schedUnlink q st t) t) :=
  of_sameData ((SameData.schedUnlink q st t).trans (.schedLink r _ t))

theorem blockThread (st : State) (t : ℕ) : Untouched st (auBlockThread st t) :=
  (setState st t .blocked nofun).trans (move .ready .blocked _ t)

theorem unblockThread (st : State) (t : ℕ) : Untouched st (auUnblockThread st t) := by
  unfold auUnblockThread
  dsimp only
  split_ifs
  · exact (setState st t .ready nofun).trans (move .blocked .ready _ t)
  · exact setState st t .ready nofun
  · exact move .blocked .ready _ t
  · exact refl st

theorem wakePoller (st : State) (t : ℕ) : Untouched st (auThreadWakePoller st t) := by
  unfold auThreadWakePoller
  dsimp only
  split_ifs
  · exact refl st
  · exact ((of_sameData (.schedUnlink .blocked st t)).trans (setState _ t .ready nofun)).trans
      (of_sameData (.schedLink .ready _ t))
  · exact move .blocked .ready st t
  · have hquanta := setThr st t { st.thr t with sleepQuanta := 0 } rfl id
    exact ((hquanta.trans (of_sameData (.schedUnlink .sleep _ t))).trans
      (setState _ t .ready nofun)).trans (of_sameData (.schedLink .ready _ t))
  · have hquanta := setThr st t { st.thr t with sleepQuanta := 0 } rfl id
    exact hquanta.trans (move .sleep .ready _ t)
  · exact refl st

theorem sleepThread (st : State) (t : ℕ) (ms now : UInt64) :
    Untouched st (auSleepThread st t ms now) :=
  (setThr st t { st.thr t with
    state := .sleep, sleepQuanta := ms, sleep_until_us := now + ms * 1000 } rfl nofun).trans
    (move .ready .sleep _ t)

theorem makeReady (st : State) (t : ℕ) : Untouched st (auThreadMakeReady st t) := by
  unfold auThreadMakeReady
  dsimp only
  split_ifs
  · exact ((setThr st t { st.thr t with sleepQuanta := 0 } rfl id).trans
      (move .sleep .ready _ t)).trans (setState _ t .ready nofun)
  · exact unblockThread st t
  · exact refl st

theorem forEachSaved {f : State → ℕ → State} (hf : ∀ st t, Untouched st (f st t)) (n : ℕ)
    (st : State) (t : ℕ) : Untouched st (Sched.forEachSaved f n st t) := by
  induction n generalizing st t with
  | zero => exact refl st
  | succ n ih =>
    unfold Sched.forEachSaved
    split_ifs
    · exact refl st
    · exact (hf st t).trans (ih _ _)

theorem wakeSleeper (now : UInt64) (st : State) (t : ℕ) :
    Untouched st (Sched.wakeSleeper now st t) := by
  have hquanta : Untouched st (if (st.thr t).sleepQuanta > 0 ∧ now ≥ (st.thr t).sleep_until_us then
      st.setThr t { st.thr t with sleepQuanta := 0 } else st) := by
    split_ifs
    · exact setThr st t _ rfl id
    · exact refl st
  unfold Sched.wakeSleeper
  generalize (if (st.thr t).sleepQuanta > 0 ∧ now ≥ (st.thr t).sleep_until_us then
    st.setThr t { st.thr t with sleepQuanta := 0 } else st) = mid at hquanta ⊢
  dsimp only
  split_ifs
  · exact (hquanta.trans (setState mid t .ready nofun)).trans (move .sleep .ready _ t)
  · exact hquanta.trans (move .sleep .ready mid t)
  · exact hquanta

theorem releaseEDF (now : UInt64) (st : State) (t : ℕ) :
    Untouched st (Sched.releaseEDF now st t) := by
  unfold Sched.releaseEDF
  split_ifs
  · exact (setThr st t { st.thr t with edf_waiting := false } rfl id).trans (unblockThread _ t)
  · exact refl st

theorem awakeLoop (found : ℕ → Bool) (ws : List ℕ) (st : State) :
    Untouched st (Sched.awakeLoop found ws st).2 := by
  induction ws generalizing st with
  | nil => exact refl st
  | cons w ws ih =>
    unfold Sched.awakeLoop
    split_ifs
    · exact ih st
    · exact (unblockThread st w).trans (ih _)
    · exact refl st

theorem awakeWaiters (found : ℕ → Bool) (st : State) (t : ℕ) :
    Untouched st (auThreadAwakeWaiters found st t) := by
  have hloop := awakeLoop found (st.thr t).waitlist st
  unfold auThreadAwakeWaiters
  generalize Sched.awakeLoop found (st.thr t).waitlist st = r at hloop ⊢
  exact hloop.trans (setThr r.2 t { r.2.thr t with waitlist := r.1 } rfl id)

theorem waitForTermination (st : State) (id : ℕ) (found : Bool) :
    Untouched st (auThreadWaitForTermination st id found) := by
  unfold auThreadWaitForTermination
  split
  · exact refl st
  · next d _ =>
    have hwait := setThr st d { st.thr d with
      waitlist := (st.thr d).waitlist ++ [st.current_thread] } rfl fun h => h
    split_ifs
    · exact hwait.trans (blockThread _ _)
    · exact refl st

theorem preempt (st : State) : Untouched st (preemptThread st) := by
  unfold preemptThread
  split_ifs
  · exact setState st _ .ready nofun
  · exact refl st

theorem switch (st : State) : Untouched st (switchThread st) := by
  have hnext : Untouched st (aa64NextThread st) := ⟨rfl, fun _ => rfl, fun _ h => h⟩
  unfold switchThread
  dsimp only
  split_ifs
  · exact hnext.trans (setState _ _ _ nofun)
  · exact hnext.trans (setState _ _ _ nofun)
  · exact hnext

theorem scheduleNext (st : State) : Untouched st (auScheduleNext st) := by
  have hset := setState st st.current_thread .leftInKernel nofun
  exact ⟨hset.live, hset.rest, hset.killable⟩

end Untouched

/-- The functions that only move threads and write their states. -/
def Act.movesOnly : Act → Bool
  | .create _ | .moveToTrash _ | .exitSubThread .. | .clean _ | .setPoll .. | .setEDF .. => false
  | _ => true

theorem Untouched.step (st : State) {act : Act} (ha : act.movesOnly) :
    Untouched st (Sched.step st act) := by
  cases act with
  | block t => exact blockThread st t
  | unblock t => exact unblockThread st t
  | sleep t ms now => exact sleepThread st t ms now
  | makeReady t => exact makeReady st t
  | wakePoller t => exact wakePoller st t
  | handleSleepThreads now => exact forEachSaved (wakeSleeper now) _ st _
  | edfHandleReleases now => exact forEachSaved (releaseEDF now) _ st _
  | awakeWaiters found t => exact awakeWaiters found st t
  | waitForTermination id found => exact waitForTermination st id found
  | preempt => exact preempt st
  | switch => exact switch st
  | scheduleNext => exact scheduleNext st
  | create t => cases ha
  | setPoll t on => cases ha
  | moveToTrash t => cases ha
  | exitSubThread found threads t id => cases ha
  | clean t => cases ha
  | setEDF t waiting release deadline => cases ha

end Xeneva.Sched

/-!
# Waking a sleeper

A thread sleeps with the state `sleep`, or with `leftInKernel` where `AuSchedYieldMs` gave
the processor away for it. Each wake operation tests that state in its own way.
-/

namespace Xeneva.Sched
open Base

variable {st : State} {m : Queue → List ℕ} {t : ℕ}

/-- The scheduler is started; `now` is the time `AuSleepThread` reads. -/
def auSchedYieldMs (st : State) (ms now : UInt64) : Int × State :=
  if st.current_thread = 0 ∨ st.current_thread = st.idle_thr then (-1, st)
  else
    let ms := if ms = 0 then 1 else ms
    (0, auScheduleNext (auSleepThread st st.current_thread ms now))

/-- A wake operation that may be addressed to a sleeping thread. -/
inductive Wake
  | makeReady
  | unblock
  | expiry (now : UInt64)
  deriving DecidableEq, Repr

/-- The call that performs the wake. -/
def Wake.act (t : ℕ) : Wake → Act
  | .makeReady => .makeReady t
  | .unblock => .unblock t
  | .expiry now => .handleSleepThreads now

/-- An expiry is for the threads whose time has come, the other wakes are for the thread
they are given. -/
def Wake.Addressed (st : State) (t : ℕ) : Wake → Prop
  | .expiry now => Due now (st.thr t)
  | _ => True

instance (st : State) (t : ℕ) : DecidablePred (Wake.Addressed st t) := fun w => by
  cases w <;> unfold Wake.Addressed <;> infer_instance

/-- The thread is in the ready list in a state the scheduler picks. -/
def Woken (st : State) (t : ℕ) : Prop := t ∈ st.members .ready ∧ runnable st t = true

instance (st : State) (t : ℕ) : Decidable (Woken st t) := inferInstanceAs (Decidable (_ ∧ _))

/-- The wakes a sleeper hears: `AuThreadMakeReady` does nothing for one that yielded, and
`AuUnblockThread` does not look into the sleep list. -/
def Wake.Heard (st : State) (t : ℕ) : Wake → Prop
  | .makeReady => (st.thr t).state = .sleep
  | .unblock => False
  | .expiry _ => True

instance (st : State) (t : ℕ) : DecidablePred (Wake.Heard st t) := fun w => by
  cases w <;> unfold Wake.Heard <;> infer_instance

/-- A sleeper has one of two states. -/
theorem SchedInv.sleeper_state (h : SchedInv st m) (ht : t ∈ m .sleep) :
    (st.thr t).state = .sleep ∨ (st.thr t).state = .leftInKernel := by
  simpa [admits] using h.state .sleep t ht

/-- To yield is to sleep and to leave the processor, so the runs of the machine cover it. -/
theorem auSchedYieldMs_run (hc : st.current_thread ≠ 0) (hidle : st.current_thread ≠ st.idle_thr)
    (ms now : UInt64) : (auSchedYieldMs st ms now).2 =
      run step st [.sleep st.current_thread (if ms = 0 then 1 else ms) now, .scheduleNext] := by
  unfold auSchedYieldMs
  rw [if_neg (not_or.mpr ⟨hc, hidle⟩)]
  rfl

/-- A thread that yields is in the sleep list, but not in the state `sleep`. -/
theorem SchedInv.yieldMs (h : SchedInv st m) (ht : st.current_thread ∈ m .ready)
    (hidle : st.current_thread ≠ st.idle_thr) (ms now : UInt64) :
    st.current_thread ∈ (auSchedYieldMs st ms now).2.members .sleep ∧
      ((auSchedYieldMs st ms now).2.thr st.current_thread).state = .leftInKernel := by
  rw [auSchedYieldMs_run (h.ne_zero ht) hidle]
  generalize (if ms = 0 then 1 else ms) = quanta
  simp only [run_cons, run_nil, Sched.step]
  have hsleep := h.sleep ht quanta now
  have hsame : (auSleepThread st st.current_thread quanta now).current_thread =
      st.current_thread := by
    unfold auSleepThread
    exact ((SameData.schedUnlink .ready _ _).trans (.schedLink .sleep _ _)).current_thread
  have hmem : st.current_thread ∈ moveTo m st.current_thread .ready .sleep .sleep :=
    (h.toLinks.mem_moveTo ht .sleep _).mpr (.inr ⟨rfl, rfl⟩)
  have hk : ((auSleepThread st st.current_thread quanta now).thr
      st.current_thread).state ≠ .killable := by
    intro hk
    exact absurd ((hsleep.queue_of hmem).2.2.2.mp hk) (by simp)
  have hnext : SchedInv (auScheduleNext (auSleepThread st st.current_thread quanta now)) _ :=
    hsleep.scheduleNext (by rw [hsame]; exact hk)
  constructor
  · rw [hnext.members_eq]
    exact hmem
  · simp [auScheduleNext, State.setState, hsame]

/-! ## Each wake -/

/-- A live thread with the state `ready` is in the ready list. -/
theorem SchedInv.woken_of_ready (h : SchedInv st m) (ht : t ∈ st.live)
    (hs : (st.thr t).state = .ready) : Woken st t := by
  obtain ⟨q, hq⟩ := (h.live t).mp ht
  have hadm := h.state q t hq
  rw [hs] at hadm
  have hqr : q = .ready := by cases q <;> simp [admits] at hadm ⊢
  constructor
  · rw [h.members_eq, ← hqr]
    exact hq
  · simp [runnable, hs]

theorem SchedInv.not_woken (h : SchedInv st m) (ht : t ∈ m .sleep) : ¬ Woken st t := by
  intro hw
  have hr := hw.1
  rw [h.members_eq] at hr
  exact absurd (h.unique .sleep .ready t ht hr) (by simp)

theorem SchedInv.makeReady_woken (h : SchedInv st m) (ht : t ∈ m .sleep) :
    Woken (auThreadMakeReady st t) t ↔ (st.thr t).state = .sleep := by
  have hlive : t ∈ st.live := (h.live t).mpr ⟨_, ht⟩
  constructor
  · intro hw
    refine (h.sleeper_state ht).resolve_right fun hs => ?_
    -- neither branch of the function is taken
    have hsame : auThreadMakeReady st t = st := by simp [auThreadMakeReady, hs]
    rw [hsame] at hw
    exact h.not_woken ht hw
  · intro hs
    obtain ⟨m', h', -⟩ := h.makeReady hlive fun _ => False
    have hdata := (SameData.schedUnlink .sleep (st.setThr t { st.thr t with sleepQuanta := 0 })
      t).trans (.schedLink .ready _ t)
    apply h'.woken_of_ready
    · unfold auThreadMakeReady
      rw [if_pos hs]
      exact hdata.live ▸ hlive
    · unfold auThreadMakeReady
      rw [if_pos hs]
      simp [State.setState]

/-- `AuUnblockThread` writes the state of a sleeper and leaves it in its list. -/
theorem SchedInv.unblock_not_woken (h : SchedInv st m) (ht : t ∈ m .sleep) :
    ¬ Woken (auUnblockThread st t) t := by
  have hset : Links (st.setState t (wokenState (st.thr t).state)) m := h.toLinks.setState t _
  have hno : t ∉ m .blocked := fun hb => absurd (h.unique .sleep .blocked t ht hb) (by simp)
  have heq : auUnblockThread st t = st.setState t (wokenState (st.thr t).state) := by
    unfold auUnblockThread
    rw [setState_woken]
    dsimp only
    rw [hset.members_eq (h.length_le .blocked), if_neg hno]
  intro hw
  have hr := hw.1
  rw [heq, hset.members_eq (h.length_le .ready)] at hr
  exact absurd (h.unique .sleep .ready t ht hr) (by simp)

/-- What one turn of the expiry loop does for its own thread and for any other. -/
theorem SchedInv.wakeSleeper_woken (h : SchedInv st m) {u : ℕ} (hu : u ∈ m .sleep)
    (now : UInt64) : ∃ m', SchedInv (Sched.wakeSleeper now st u) m' ∧
      (m' .sleep = m .sleep ∨ m' .sleep = (m .sleep).erase u) ∧
      (Due now (st.thr u) → Woken (Sched.wakeSleeper now st u) u) ∧
      ∀ a, a ≠ u → (Due now ((Sched.wakeSleeper now st u).thr a) ↔ Due now (st.thr a)) ∧
        (Woken st a → Woken (Sched.wakeSleeper now st u) a) := by
  rw [wakeSleeper_eq]
  split_ifs with hd
  · have hmove : SchedInv _ (moveTo m u .sleep .ready) :=
      h.move (c := { st.thr u with
        sleepQuanta := 0, state := wokenState (st.thr u).state }) hu rfl rfl (wokenState_ready _)
    have hdata := (SameData.schedUnlink .sleep (st.setThr u { st.thr u with
      sleepQuanta := 0, state := wokenState (st.thr u).state }) u).trans (.schedLink .ready _ u)
    have hmem := h.toLinks.mem_moveTo (r := .ready) hu .ready
    refine ⟨_, hmove, .inr (moveTo_self (by simp)), fun _ => ⟨?_, ?_⟩, fun a hau => ⟨?_, ?_⟩⟩
    · rw [hmove.members_eq]
      exact (hmem u).mpr (.inr ⟨rfl, rfl⟩)
    · unfold runnable
      rw [hdata.state u, setThr_thr, if_pos rfl]
      rcases h.sleeper_state hu with hs | hs
      · simp [hs, wokenState]
      · simp [hs, wokenState]
    · have ha := hdata.data a
      rw [setThr_thr, if_neg hau] at ha
      have hq := congrArg AA64Thread.sleepQuanta ha
      have hus := congrArg AA64Thread.sleep_until_us ha
      simp only [AA64Thread.data] at hq hus
      unfold Due
      rw [hq, hus]
    · rintro ⟨ha, hrun⟩
      have hstate := hdata.state a
      rw [setThr_thr, if_neg hau] at hstate
      constructor
      · rw [hmove.members_eq]
        rw [h.members_eq] at ha
        exact (hmem a).mpr (.inl ⟨hau, ha⟩)
      · unfold runnable at hrun ⊢
        rw [hstate]
        exact hrun
  · exact ⟨m, h, .inl rfl, fun hd' => absurd hd' hd, fun a _ => ⟨Iff.rfl, id⟩⟩

/-- The expiry loop: a sleeper is still before it and due, or it is woken already. -/
theorem SchedInv.expiry_woken (h : SchedInv st m) (ht : t ∈ m .sleep) {now : UInt64}
    (hd : Due now (st.thr t)) : Woken (auHandleSleepThreads st now) t := by
  unfold auHandleSleepThreads
  rw [(h.linked .sleep).head_eq]
  obtain ⟨-, -, hend⟩ := SchedInv.forEachSaved_rule (f := Sched.wakeSleeper now)
    (P := fun st todo => t ∈ todo ∧ Due now (st.thr t) ∨ Woken st t)
    (fun {st m u post} h hu hP => by
      obtain ⟨m', h', hq, hself, hother⟩ := h.wakeSleeper_woken hu now
      refine ⟨m', h', hq, ?_⟩
      by_cases htu : t = u
      · subst htu
        exact .inr (hself (hP.resolve_right (h.not_woken hu)).2)
      · obtain ⟨hdue, hwoken⟩ := hother t htu
        rcases hP with ⟨hmem, hd⟩ | hw
        · exact .inl ⟨(List.mem_cons.mp hmem).resolve_left htu, hdue.mpr hd⟩
        · exact .inr (hwoken hw))
    [] h rfl (h.length_le .sleep) (.inl ⟨ht, hd⟩)
  exact hend.resolve_left fun hc => absurd hc.1 List.not_mem_nil

theorem SchedInv.wakes (h : SchedInv st m) (ht : t ∈ m .sleep) (w : Wake)
    (hw : w.Addressed st t) : Woken (Sched.step st (w.act t)) t ↔ w.Heard st t := by
  cases w with
  | makeReady => exact h.makeReady_woken ht
  | unblock => exact iff_of_false (h.unblock_not_woken ht) id
  | expiry now => exact iff_of_true (h.expiry_woken ht hw) trivial

/-- In every state of a run that keeps the lists, a wake addressed to a sleeper puts it into
the ready list exactly if it is an expiry, or `AuThreadMakeReady` for one in state `sleep`. -/
theorem exec_wakes (idle : ℕ) (acts : List Act) (hi : idle ≠ 0)
    (h : Respects SchedSafe step (State.init idle) acts) (t : ℕ)
    (ht : t ∈ (exec idle acts).members .sleep) (w : Wake) (hw : w.Addressed (exec idle acts) t) :
    Woken (step (exec idle acts) (w.act t)) t ↔ w.Heard (exec idle acts) t := by
  obtain ⟨m, hm⟩ : ∃ m, SchedInv (exec idle acts) m :=
    h.invariant (I := fun st => ∃ m, SchedInv st m)
      (fun st act ⟨_, hI⟩ hok => hI.step hok) (SchedInv.init hi)
  rw [hm.members_eq] at ht
  exact hm.wakes ht w hw

/-- A thread that runs and yields inside the kernel. -/
def yieldRun : List Act := [.create 2, .switch, .sleep 2 5 0, .scheduleNext]

theorem exec_wakes_yield :
    Woken (step (exec 1 yieldRun) ((Wake.expiry 5000).act 2)) 2 ↔
      (Wake.expiry 5000).Heard (exec 1 yieldRun) 2 :=
  exec_wakes 1 yieldRun (by decide) (by decide +kernel) 2 (by decide +kernel) (.expiry 5000)
    (by decide +kernel)

/-- A driver that yielded for five milliseconds does not hear `AuThreadMakeReady`. -/
theorem not_exec_wakes :
    ¬ ∀ (idle : ℕ) (acts : List Act), idle ≠ 0 → Respects SchedSafe step (State.init idle) acts →
      ∀ t, t ∈ (exec idle acts).members .sleep → t ≠ (exec idle acts).current_thread →
        ∀ w : Wake, w.Addressed (exec idle acts) t → Woken (step (exec idle acts) (w.act t)) t := by
  intro h
  have hw := h 1 yieldRun (by decide) (by decide +kernel) 2 (by decide +kernel)
    (by decide +kernel) .makeReady trivial
  exact absurd hw (by decide +kernel)

end Xeneva.Sched
