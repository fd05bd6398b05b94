import Xeneva.Hal.Edf

/-!
# Periods

The releases of an EDF thread against the exact timeline that its admission fixes, without
wrapping. A job that ends at the very time of its deadline is taken for an overrun.
-/

namespace Xeneva.Sched
open Base

variable {st st' : State} {now : UInt64}

/-- `AuScheduleThread` without the registers. -/
def auScheduleThread (st : State) (now : UInt64) : State :=
  switchThread (auEDFHandleReleases (auHandleSleepThreads (preemptThread st) now) now)

/-! ## What the scheduler does to jobs -/

/-- A thread with nothing but its job. -/
def AA64Thread.job (c : AA64Thread) : AA64Thread where
  edf_enabled := c.edf_enabled
  edf_waiting := c.edf_waiting
  edf_release_us := c.edf_release_us
  edf_deadline_us := c.edf_deadline_us

def SameJobs (st st' : State) : Prop := ∀ a, (st'.thr a).job = (st.thr a).job

namespace SameJobs

theorem refl (st : State) : SameJobs st st := fun _ => rfl

theorem trans {st'' : State} (h : SameJobs st st') (h' : SameJobs st' st'') : SameJobs st st'' :=
  fun a => (h' a).trans (h a)

theorem of_sameData (h : SameData st st') : SameJobs st st' :=
  fun a => (congrArg AA64Thread.job (h.data a) :)

theorem setThr (st : State) (t : ℕ) (c : AA64Thread) (hc : c.job = (st.thr t).job) :
    SameJobs st (st.setThr t c) := by
  intro a
  rw [setThr_thr]
  by_cases hat : a = t
  · rw [if_pos hat, hat, hc]
  · rw [if_neg hat]

theorem setState (st : State) (t : ℕ) (k : ThreadState) : SameJobs st (st.setState t k) :=
  setThr st t _ rfl

theorem move (q r : Queue) (st : State) (t : ℕ) :
    SameJobs st (schedLink r (schedUnlink q st t) t) :=
  of_sameData ((SameData.schedUnlink q st t).trans (.schedLink r _ t))

theorem blockThread (st : State) (t : ℕ) : SameJobs st (auBlockThread st t) :=
  (setState st t .blocked).trans (move .ready .blocked _ t)

theorem unblockThread (st : State) (t : ℕ) : SameJobs st (auUnblockThread st t) := by
  unfold auUnblockThread
  dsimp only
  split_ifs
  · exact (setState st t .ready).trans (move .blocked .ready _ t)
  · exact setState st t .ready
  · exact move .blocked .ready _ t
  · exact refl st

theorem scheduleNext (st : State) : SameJobs st (auScheduleNext st) :=
  setState st st.current_thread .leftInKernel

theorem wakeSleeper (now : UInt64) (st : State) (t : ℕ) :
    SameJobs st (Sched.wakeSleeper now st t) := by
  have hquanta : SameJobs st (if (st.thr t).sleepQuanta > 0 ∧ now ≥ (st.thr t).sleep_until_us then
      st.setThr t { st.thr t with sleepQuanta := 0 } else st) := by
    split_ifs
    · exact setThr st t _ rfl
    · exact refl st
  unfold Sched.wakeSleeper
  generalize (if (st.thr t).sleepQuanta > 0 ∧ now ≥ (st.thr t).sleep_until_us then
    st.setThr t { st.thr t with sleepQuanta := 0 } else st) = mid at hquanta ⊢
  dsimp only
  split_ifs
  · exact (hquanta.trans (setState mid t .ready)).trans (move .sleep .ready _ t)
  · exact hquanta.trans (move .sleep .ready mid t)
  · exact hquanta

theorem preempt (st : State) : SameJobs st (preemptThread st) := by
  unfold preemptThread
  split_ifs
  · exact setState st _ .ready
  · exact refl st

theorem switch (st : State) : SameJobs st (switchThread st) := by
  unfold switchThread
  dsimp only
  split_ifs
  · exact setState (aa64NextThread st) _ .running
  · exact setState (aa64NextThread st) _ .ready
  · exact refl st

end SameJobs

/-- Jobs stay, and a wait ends no earlier than its release. -/
def Released (now : UInt64) (st st' : State) : Prop :=
  ∀ a, (st'.thr a).job = (st.thr a).job ∨ (st.thr a).edf_release_us ≤ now ∧
    (st'.thr a).job = { (st.thr a).job with edf_waiting := false }

namespace Released

theorem of_same (h : SameJobs st st') (now : UInt64) : Released now st st' := fun a => .inl (h a)

theorem trans {st'' : State} (h : Released now st st') (h' : Released now st' st'') :
    Released now st st'' := by
  intro a
  have hrelease : (st'.thr a).edf_release_us = (st.thr a).edf_release_us := by
    rcases h a with he | ⟨-, he⟩
    · exact (congrArg AA64Thread.edf_release_us he :)
    · exact (congrArg AA64Thread.edf_release_us he :)
  rcases h' a with he' | ⟨hle, he'⟩
  · rw [he']
    exact h a
  · right
    rw [hrelease] at hle
    refine ⟨hle, he'.trans ?_⟩
    rcases h a with he | ⟨-, he⟩
    · rw [he]
    · rw [he]

theorem releaseEDF (now : UInt64) (st : State) (t : ℕ) :
    Released now st (Sched.releaseEDF now st t) := by
  unfold Sched.releaseEDF
  split_ifs with hc
  · have hwake : Released now st (st.setThr t { st.thr t with edf_waiting := false }) := by
      intro a
      rw [setThr_thr]
      by_cases hat : a = t
      · rw [if_pos hat, hat]
        exact .inr ⟨hc.2.2.2, rfl⟩
      · rw [if_neg hat]
        exact .inl rfl
    exact hwake.trans (.of_same (.unblockThread _ t) now)
  · exact .of_same (.refl st) now

theorem forEachSaved {f : State → ℕ → State} (hf : ∀ st t, Released now st (f st t)) (n : ℕ)
    (st : State) (t : ℕ) : Released now st (Sched.forEachSaved f n st t) := by
  induction n generalizing st t with
  | zero => exact .of_same (.refl st) now
  | succ n ih =>
    unfold Sched.forEachSaved
    split_ifs
    · exact .of_same (.refl st) now
    · exact (hf st t).trans (ih _ _)

theorem scheduleThread (now : UInt64) (st : State) : Released now st (auScheduleThread st now) := by
  have hpreempt := of_same (.preempt st) now
  have hsleep : Released now (preemptThread st) (auHandleSleepThreads (preemptThread st) now) :=
    forEachSaved (fun st t => of_same (.wakeSleeper now st t) now) _ _ _
  have hedf : Released now (auHandleSleepThreads (preemptThread st) now)
      (auEDFHandleReleases (auHandleSleepThreads (preemptThread st) now) now) :=
    forEachSaved (releaseEDF now) _ _ _
  exact ((hpreempt.trans hsleep).trans hedf).trans (of_same (.switch _) now)

end Released

namespace Edf

/-- `edf_misses` is counted beside the reservations; `system_current_us` is what
`AuGetCurrentUS` returns. -/
structure PeriodState where
  edf : EdfState
  edf_misses : ℕ → UInt64
  system_current_us : UInt64

variable {s : PeriodState} {t : ℕ}

def PeriodState.thr (s : PeriodState) (t : ℕ) : AA64Thread := s.edf.kern.thr t

/-- `AuEDFSetParams`, which clears the misses of a thread that it admits. -/
def setParams (s : PeriodState) (t : ℕ) (period_us wcet_us : UInt64) : PeriodState × Bool :=
  let r := auEDFSetParams s.edf t period_us wcet_us s.system_current_us
  ({ s with
    edf := r.1
    edf_misses := if r.2 then Function.update s.edf_misses t 0 else s.edf_misses }, r.2)

/-- The misses of a thread after `AuEDFWaitPeriod`. -/
def missesAfter (s : PeriodState) (t : ℕ) : UInt64 :=
  let now := s.system_current_us
  let misses := if now > (s.thr t).edf_deadline_us then s.edf_misses t + 1 else s.edf_misses t
  let release := (s.thr t).edf_release_us + s.edf.edf_period_us t
  if release ≤ now then
    let skipped := (now - release) / s.edf.edf_period_us t + 1
    misses + skipped
  else misses

/-- `AuEDFWaitPeriod` at the time that the clock shows. -/
def waitPeriod (s : PeriodState) (t : ℕ) : PeriodState :=
  if t = 0 ∨ ¬(s.thr t).edf_enabled then s
  else { s with
    edf := auEDFWaitPeriod s.edf t s.system_current_us
    edf_misses := Function.update s.edf_misses t (missesAfter s t) }

/-- The timer interrupt moves the clock and schedules. -/
def periodTick (s : PeriodState) (now : UInt64) : PeriodState where
  edf := { s.edf with kern := auScheduleThread s.edf.kern now }
  edf_misses := s.edf_misses
  system_current_us := now

inductive PeriodOp
  | tick (now : UInt64)
  | waitPeriod (t : ℕ)

def periodStep (s : PeriodState) : PeriodOp → PeriodState
  | .tick now => periodTick s now
  | .waitPeriod t => waitPeriod s t

/-- The job in force was released a number of periods after the first, and has one period. -/
def OnTimeline (s : PeriodState) (t origin period : ℕ) : Prop :=
  (s.thr t).edf_enabled = true ∧ (∃ k, (s.thr t).edf_release_us.toNat = origin + k * period) ∧
    (s.thr t).edf_deadline_us.toNat = (s.thr t).edf_release_us.toNat + period

/-- The end of a job. On time, it costs nothing and its successor is released at the deadline.
Otherwise the first release in the future comes next, and the job and those before that release
are missed. -/
structure Ends (s s' : PeriodState) (t period : ℕ) : Prop where
  waits : (s'.thr t).edf_waiting = true
  onTime : s.system_current_us ≤ (s.thr t).edf_deadline_us →
    s'.edf_misses t = s.edf_misses t ∧ (s'.thr t).edf_release_us = (s.thr t).edf_deadline_us
  late : (s.thr t).edf_deadline_us < s.system_current_us →
    s.system_current_us.toNat < (s'.thr t).edf_release_us.toNat ∧
    (s'.thr t).edf_release_us.toNat ≤ s.system_current_us.toNat + period ∧
    ∃ n, (s'.thr t).edf_release_us.toNat = (s.thr t).edf_release_us.toNat + n * period ∧
      (s'.edf_misses t).toNat = (s.edf_misses t).toNat + n

/-- The job in force stays, and no tick before its release ends the thread's wait. -/
structure Stays (s s' : PeriodState) (t : ℕ) : Prop where
  release : (s'.thr t).edf_release_us = (s.thr t).edf_release_us
  deadline : (s'.thr t).edf_deadline_us = (s.thr t).edf_deadline_us
  misses : s'.edf_misses t = s.edf_misses t
  waits : (s.thr t).edf_waiting = true → (s'.thr t).edf_waiting = false →
    (s.thr t).edf_release_us ≤ s'.system_current_us

/-- What a step does to a thread. -/
def Periodic (t period : ℕ) (s : PeriodState) : PeriodOp → Prop
  | .tick now => Stays s (periodTick s now) t
  | .waitPeriod x =>
    if x = t then Ends s (waitPeriod s x) t period else Stays s (waitPeriod s x) t

/-- The thread does not end a job at the time of its deadline, and the times do not wrap. -/
def Punctual (t period : ℕ) (s : PeriodState) : PeriodOp → Prop
  | .tick _ => True
  | .waitPeriod x => x = t → s.system_current_us ≠ (s.thr t).edf_deadline_us ∧
    (s.thr t).edf_release_us.toNat + 2 * period < 2 ^ 64 ∧
    ((s.thr t).edf_deadline_us < s.system_current_us →
      s.system_current_us.toNat + 2 * period < 2 ^ 64)

instance (t period : ℕ) (s : PeriodState) : DecidablePred (Punctual t period s)
  | .tick _ => inferInstanceAs (Decidable True)
  | .waitPeriod x => inferInstanceAs (Decidable (x = t → _ ∧ _ ∧ _))


theorem toNat_pos {a : UInt64} (h : a ≠ 0) : 0 < a.toNat := by
  rw [Nat.pos_iff_ne_zero]
  exact fun h0 => h (UInt64.toNat_inj.mp h0)

/-- The release that `AuEDFWaitPeriod` computes. -/
def nextRelease (release period now : UInt64) : UInt64 :=
  if release + period ≤ now then
    release + period + ((now - (release + period)) / period + 1) * period
  else release + period

section Catching

variable {release period : UInt64} (hpos : period ≠ 0)
  (hr : release.toNat + 2 * period.toNat < 2 ^ 64)
  (hn : release.toNat + period.toNat ≤ now.toNat → now.toNat + 2 * period.toNat < 2 ^ 64)

include hr in
theorem toNat_first : (release + period).toNat = release.toNat + period.toNat := by
  rw [UInt64.toNat_add]
  apply Nat.mod_eq_of_lt
  omega

include hr in
theorem first_le : release + period ≤ now ↔ release.toNat + period.toNat ≤ now.toNat := by
  rw [UInt64.le_iff_toNat_le, toNat_first hr]

include hpos hr hn in
theorem toNat_skipped (hle : release.toNat + period.toNat ≤ now.toNat) :
    ((now - (release + period)) / period + 1).toNat =
      (now.toNat - (release.toNat + period.toNat)) / period.toNat + 1 := by
  have hone := toNat_pos hpos
  have hlate := hn hle
  have hdiv := Nat.div_le_self (now.toNat - (release.toNat + period.toNat)) period.toNat
  rw [UInt64.toNat_add, UInt64.toNat_div, UInt64.toNat_sub_of_le _ _ ((first_le hr).mpr hle),
    toNat_first hr, UInt64.toNat_one]
  apply Nat.mod_eq_of_lt
  omega

include hpos hr hn in
/-- The release that comes next, as a number of periods. -/
theorem nextRelease_cases (hne : now.toNat ≠ release.toNat + period.toNat) :
    (now.toNat < release.toNat + period.toNat ∧
      (nextRelease release period now).toNat = release.toNat + period.toNat) ∨
    (release.toNat + period.toNat < now.toNat ∧
      (nextRelease release period now).toNat = release.toNat +
        ((now.toNat - (release.toNat + period.toNat)) / period.toNat + 2) * period.toNat ∧
      now.toNat < (nextRelease release period now).toNat ∧
      (nextRelease release period now).toNat ≤ now.toNat + period.toNat) := by
  unfold nextRelease
  by_cases hle : release.toNat + period.toNat ≤ now.toNat
  · right
    rw [if_pos ((first_le hr).mpr hle)]
    have hlate := hn hle
    have hdiv := Nat.div_add_mod' (now.toNat - (release.toNat + period.toNat)) period.toNat
    have hmod := Nat.mod_lt (now.toNat - (release.toNat + period.toNat)) (toNat_pos hpos)
    have hprod : (((now - (release + period)) / period + 1) * period).toNat =
        ((now.toNat - (release.toNat + period.toNat)) / period.toNat + 1) * period.toNat := by
      rw [UInt64.toNat_mul, toNat_skipped hpos hr hn hle]
      apply Nat.mod_eq_of_lt
      rw [Nat.add_mul]
      omega
    have hsum : (release + period + ((now - (release + period)) / period + 1) * period).toNat =
        release.toNat + period.toNat +
          ((now.toNat - (release.toNat + period.toNat)) / period.toNat + 1) * period.toNat := by
      rw [UInt64.toNat_add, toNat_first hr, hprod]
      apply Nat.mod_eq_of_lt
      rw [Nat.add_mul]
      omega
    rw [hsum, Nat.add_mul, Nat.add_mul]
    omega
  · left
    rw [if_neg fun h => hle ((first_le hr).mp h), toNat_first hr]
    omega

end Catching

/-! ## Steps -/

variable {origin : ℕ} {period_us : UInt64}

structure PeriodInv (s : PeriodState) (t origin : ℕ) (period_us : UInt64) : Prop where
  line : OnTimeline s t origin period_us.toNat
  thread : t ≠ 0
  period : s.edf.edf_period_us t = period_us
  pos : period_us ≠ 0
  misses : origin + (s.edf_misses t).toNat * period_us.toNat ≤ (s.thr t).edf_release_us.toNat

/-- A step that leaves the job alone. -/
theorem PeriodInv.stays (h : PeriodInv s t origin period_us) {u : PeriodState}
    (hu : Stays s u t) (hen : (u.thr t).edf_enabled = (s.thr t).edf_enabled)
    (hp : u.edf.edf_period_us t = s.edf.edf_period_us t) : PeriodInv u t origin period_us := by
  obtain ⟨hon, hk, hd⟩ := h.line
  refine ⟨⟨hen.trans hon, ?_, ?_⟩, h.thread, hp.trans h.period, h.pos, ?_⟩
  · rw [hu.release]
    exact hk
  · rw [hu.release, hu.deadline]
    exact hd
  · rw [hu.release, hu.misses]
    exact h.misses

/-- The job is the same, or its release ended the wait. -/
theorem PeriodInv.of_job (h : PeriodInv s t origin period_us) {u : PeriodState}
    (hjob : (u.thr t).job = (s.thr t).job ∨ (s.thr t).edf_release_us ≤ u.system_current_us ∧
      (u.thr t).job = { (s.thr t).job with edf_waiting := false })
    (hm : u.edf_misses t = s.edf_misses t) (hp : u.edf.edf_period_us t = s.edf.edf_period_us t) :
    PeriodInv u t origin period_us ∧ Stays s u t := by
  have hen : (u.thr t).edf_enabled = (s.thr t).edf_enabled := by
    rcases hjob with he | ⟨-, he⟩
    · exact (congrArg AA64Thread.edf_enabled he :)
    · exact (congrArg AA64Thread.edf_enabled he :)
  have hstays : Stays s u t := by
    rcases hjob with he | ⟨hle, he⟩
    · refine ⟨(congrArg AA64Thread.edf_release_us he :), (congrArg AA64Thread.edf_deadline_us he :),
        hm, fun hw hw' => ?_⟩
      have hsame : (u.thr t).edf_waiting = (s.thr t).edf_waiting :=
        (congrArg AA64Thread.edf_waiting he :)
      rw [hsame, hw] at hw'
      exact absurd hw'.symm Bool.false_ne_true
    · exact ⟨(congrArg AA64Thread.edf_release_us he :), (congrArg AA64Thread.edf_deadline_us he :),
        hm, fun _ _ => hle⟩
  exact ⟨h.stays hstays hen hp, hstays⟩

theorem PeriodInv.tick (h : PeriodInv s t origin period_us) (now : UInt64) :
    PeriodInv (periodTick s now) t origin period_us ∧ Stays s (periodTick s now) t := by
  have hjob := Released.scheduleThread now s.edf.kern t
  unfold periodTick
  generalize auScheduleThread s.edf.kern now = k at hjob ⊢
  exact h.of_job hjob rfl rfl

/-- What `AuEDFWaitPeriod` does to the jobs. -/
theorem waitPeriod_jobs (s : EdfState) {x : ℕ} (h0 : x ≠ 0)
    (hen : (s.kern.thr x).edf_enabled = true) (now : UInt64) (a : ℕ) :
    ((auEDFWaitPeriod s x now).kern.thr a).job = if a = x then
      { (s.kern.thr x).job with
        edf_release_us := nextRelease (s.kern.thr x).edf_release_us (s.edf_period_us x) now
        edf_deadline_us := nextRelease (s.kern.thr x).edf_release_us (s.edf_period_us x) now +
          s.edf_period_us x
        edf_waiting := true }
      else (s.kern.thr a).job := by
  unfold auEDFWaitPeriod
  rw [if_neg (by simp [h0, hen])]
  dsimp only
  have hnext : (if (s.kern.thr x).edf_release_us + s.edf_period_us x ≤ now then
      (s.kern.thr x).edf_release_us + s.edf_period_us x +
        ((now - ((s.kern.thr x).edf_release_us + s.edf_period_us x)) / s.edf_period_us x + 1) *
          s.edf_period_us x
      else (s.kern.thr x).edf_release_us + s.edf_period_us x) =
      nextRelease (s.kern.thr x).edf_release_us (s.edf_period_us x) now := rfl
  rw [hnext]
  rw [SameJobs.scheduleNext, SameJobs.blockThread, setThr_thr]
  by_cases hax : a = x
  · rw [if_pos hax, if_pos hax]
    rfl
  · rw [if_neg hax, if_neg hax]

theorem auEDFWaitPeriod_period (s : EdfState) (x : ℕ) (now : UInt64) :
    (auEDFWaitPeriod s x now).edf_period_us = s.edf_period_us := by
  unfold auEDFWaitPeriod
  split_ifs <;> rfl

/-- A job of another thread ends. -/
theorem PeriodInv.other (h : PeriodInv s t origin period_us) {x : ℕ} (hxt : x ≠ t) :
    PeriodInv (waitPeriod s x) t origin period_us ∧ Stays s (waitPeriod s x) t := by
  unfold waitPeriod
  split_ifs with hc
  · exact h.of_job (.inl rfl) rfl rfl
  · obtain ⟨h0, hen⟩ := not_or.mp hc
    have hjob := waitPeriod_jobs s.edf h0 (not_not.mp hen) s.system_current_us t
    have hperiod := auEDFWaitPeriod_period s.edf x s.system_current_us
    rw [if_neg hxt.symm] at hjob
    generalize auEDFWaitPeriod s.edf x s.system_current_us = e at hjob hperiod ⊢
    exact h.of_job (.inl hjob) (Function.update_of_ne hxt.symm _ _) (congrFun hperiod t)

/-- On time nothing is charged, and late the job and those that are passed over. -/
theorem PeriodInv.missesAfter (h : PeriodInv s t origin period_us)
    (hr : (s.thr t).edf_release_us.toNat + 2 * period_us.toNat < 2 ^ 64)
    (hn : (s.thr t).edf_release_us.toNat + period_us.toNat ≤ s.system_current_us.toNat →
      s.system_current_us.toNat + 2 * period_us.toNat < 2 ^ 64) :
    (s.system_current_us.toNat < (s.thr t).edf_release_us.toNat + period_us.toNat →
      missesAfter s t = s.edf_misses t) ∧
    ((s.thr t).edf_release_us.toNat + period_us.toNat < s.system_current_us.toNat →
      (Edf.missesAfter s t).toNat = (s.edf_misses t).toNat +
        ((s.system_current_us.toNat - ((s.thr t).edf_release_us.toNat + period_us.toNat)) /
          period_us.toNat + 2)) := by
  obtain ⟨-, -, hdead⟩ := h.line
  have hlate : s.system_current_us > (s.thr t).edf_deadline_us ↔
      (s.thr t).edf_release_us.toNat + period_us.toNat < s.system_current_us.toNat := by
    rw [gt_iff_lt, UInt64.lt_iff_toNat_lt, hdead]
  unfold Edf.missesAfter
  rw [h.period]
  dsimp only
  constructor
  · intro hlt
    rw [if_neg fun hc => Nat.lt_asymm hlt (hlate.mp hc),
      if_neg fun hc => Nat.not_le.mpr hlt ((first_le hr).mp hc)]
  · intro hlt
    have hle := Nat.le_of_lt hlt
    rw [if_pos (hlate.mpr hlt), if_pos ((first_le hr).mpr hle)]
    have hskip := toNat_skipped h.pos hr hn hle
    have hfuture := hn hle
    have hdiv := Nat.div_mul_le_self (s.system_current_us.toNat -
      ((s.thr t).edf_release_us.toNat + period_us.toNat)) period_us.toNat
    have hmisses := h.misses
    -- as many periods have gone by as there are misses
    have hfit : (s.edf_misses t).toNat + ((s.system_current_us.toNat -
        ((s.thr t).edf_release_us.toNat + period_us.toNat)) / period_us.toNat + 2) < 2 ^ 64 := by
      apply lt_of_le_of_lt (Nat.le_mul_of_pos_right _ (toNat_pos h.pos))
      rw [Nat.add_mul, Nat.add_mul]
      omega
    rw [UInt64.toNat_add, UInt64.toNat_add, hskip, UInt64.toNat_one,
      Nat.mod_eq_of_lt (a := (s.edf_misses t).toNat + 1) (by omega)]
    rw [Nat.mod_eq_of_lt (by omega)]
    omega

/-- A job of the thread ends. -/
theorem PeriodInv.ends (h : PeriodInv s t origin period_us)
    (hok : s.system_current_us ≠ (s.thr t).edf_deadline_us ∧
      (s.thr t).edf_release_us.toNat + 2 * period_us.toNat < 2 ^ 64 ∧
      ((s.thr t).edf_deadline_us < s.system_current_us →
        s.system_current_us.toNat + 2 * period_us.toNat < 2 ^ 64)) :
    PeriodInv (waitPeriod s t) t origin period_us ∧
      Ends s (waitPeriod s t) t period_us.toNat := by
  obtain ⟨hne, hr, hn⟩ := hok
  obtain ⟨hon, ⟨k, hk⟩, hdead⟩ := h.line
  have hjob := waitPeriod_jobs s.edf h.thread hon s.system_current_us t
  have hperiod := auEDFWaitPeriod_period s.edf t s.system_current_us
  have hmisses := h.misses
  rw [if_pos rfl, h.period] at hjob
  have hnat : s.system_current_us.toNat ≠ (s.thr t).edf_release_us.toNat + period_us.toNat := by
    rw [← hdead]
    exact fun he => hne (UInt64.toNat_inj.mp he)
  rw [UInt64.lt_iff_toNat_lt, hdead] at hn
  have hn' := fun hle => hn (Nat.lt_of_le_of_ne hle hnat.symm)
  have hcases := nextRelease_cases h.pos hr hn' hnat
  obtain ⟨hontime, hlate⟩ := h.missesAfter hr hn'
  unfold waitPeriod
  rw [if_neg (not_or.mpr ⟨h.thread, not_not.mpr hon⟩)]
  generalize Edf.missesAfter s t = misses at hontime hlate ⊢
  generalize auEDFWaitPeriod s.edf t s.system_current_us = e at hjob hperiod ⊢
  have hen : (e.kern.thr t).edf_enabled = true :=
    (congrArg AA64Thread.edf_enabled hjob :).trans hon
  have hwait : (e.kern.thr t).edf_waiting = true := (congrArg AA64Thread.edf_waiting hjob :)
  have hrel : (e.kern.thr t).edf_release_us =
      nextRelease (s.thr t).edf_release_us period_us s.system_current_us :=
    (congrArg AA64Thread.edf_release_us hjob :)
  have hdl : (e.kern.thr t).edf_deadline_us = (e.kern.thr t).edf_release_us + period_us := by
    rw [hrel]
    exact (congrArg AA64Thread.edf_deadline_us hjob :)
  have hm : Function.update s.edf_misses t misses t = misses := Function.update_self _ _ _
  have hdlNat : (e.kern.thr t).edf_release_us.toNat + period_us.toNat < 2 ^ 64 →
      (e.kern.thr t).edf_deadline_us.toNat = (e.kern.thr t).edf_release_us.toNat +
        period_us.toNat := by
    intro hfit
    rw [hdl, UInt64.toNat_add, Nat.mod_eq_of_lt hfit]
  have hperiod' : e.edf_period_us t = period_us := (congrFun hperiod t).trans h.period
  rw [← hrel] at hcases
  rcases hcases with ⟨hlt, hnext⟩ | ⟨hlt, hnext, hgt, hle⟩
  · have hcharge := hontime hlt
    refine ⟨⟨⟨hen, ⟨k + 1, ?_⟩, hdlNat (by omega)⟩, h.thread, hperiod', h.pos, ?_⟩, hwait, ?_, ?_⟩
    · rw [Nat.add_mul, Nat.one_mul, ← Nat.add_assoc, ← hk]
      exact hnext
    · dsimp only [PeriodState.thr]
      rw [hm, hcharge, hnext]
      exact hmisses.trans (Nat.le_add_right _ _)
    · intro _
      refine ⟨hm.trans hcharge, UInt64.toNat_inj.mp ?_⟩
      rw [hdead]
      exact hnext
    · intro hdue
      rw [UInt64.lt_iff_toNat_lt, hdead] at hdue
      omega
  · have hcharge := hlate hlt
    have hfuture := hn hlt
    generalize (s.system_current_us.toNat - ((s.thr t).edf_release_us.toNat + period_us.toNat)) /
      period_us.toNat + 2 = n at hnext hcharge
    refine ⟨⟨⟨hen, ⟨k + n, ?_⟩, hdlNat (by omega)⟩, h.thread, hperiod', h.pos, ?_⟩, hwait, ?_, ?_⟩
    · rw [Nat.add_mul, ← Nat.add_assoc, ← hk]
      exact hnext
    · dsimp only [PeriodState.thr]
      rw [hm, hcharge, hnext, Nat.add_mul, ← Nat.add_assoc]
      exact Nat.add_le_add_right hmisses _
    · intro hdue
      rw [UInt64.le_iff_toNat_le, hdead] at hdue
      omega
    · intro _
      refine ⟨hgt, hle, n, hnext, ?_⟩
      dsimp only
      rw [hm]
      exact hcharge

/-! ## Runs -/

theorem PeriodInv.step (h : PeriodInv s t origin period_us) {op : PeriodOp}
    (hok : Punctual t period_us.toNat s op) :
    PeriodInv (periodStep s op) t origin period_us ∧ Periodic t period_us.toNat s op := by
  cases op with
  | tick now => exact h.tick now
  | waitPeriod x =>
    simp only [periodStep, Periodic]
    by_cases hxt : x = t
    · rw [if_pos hxt, hxt]
      exact h.ends (hok hxt)
    · rw [if_neg hxt]
      exact h.other hxt

/-- An admitted thread has its first job from now on. -/
theorem auEDFSetParams_job {s : EdfState} {wcet_us now : UInt64}
    (hadm : (auEDFSetParams s t period_us wcet_us now).2 = true) :
    t ≠ 0 ∧ period_us ≠ 0 ∧
      (auEDFSetParams s t period_us wcet_us now).1.edf_period_us t = period_us ∧
      ((auEDFSetParams s t period_us wcet_us now).1.kern.thr t).job =
        { edf_enabled := true, edf_release_us := now, edf_deadline_us := now + period_us } := by
  unfold auEDFSetParams at hadm ⊢
  by_cases h0 : t = 0 ∨ t = s.kern.idle_thr
  · rw [if_pos h0] at hadm
    exact absurd hadm Bool.false_ne_true
  by_cases hbad : period_us = 0 ∨ wcet_us = 0 ∨ wcet_us > period_us
  · rw [if_neg h0, if_pos hbad] at hadm
    exact absurd hadm Bool.false_ne_true
  rw [if_neg h0, if_neg hbad] at hadm ⊢
  dsimp only at hadm ⊢
  generalize (if (s.kern.thr t).edf_enabled then s.util t else 0) = old at hadm ⊢
  by_cases hfull : s.edf_util_q16 - old + edfJobUtilQ16 period_us wcet_us > 0x10000
  · rw [if_pos hfull] at hadm
    exact absurd hadm Bool.false_ne_true
  rw [if_neg hfull]
  refine ⟨(not_or.mp h0).1, (not_or.mp hbad).1, Function.update_self _ _ _, ?_⟩
  rw [setThr_thr, if_pos rfl]
  rfl

theorem periodInv_setParams {wcet_us : UInt64}
    (hadm : (setParams s t period_us wcet_us).2 = true)
    (hfit : s.system_current_us.toNat + period_us.toNat < 2 ^ 64) :
    PeriodInv (setParams s t period_us wcet_us).1 t s.system_current_us.toNat period_us := by
  have hadm' : (auEDFSetParams s.edf t period_us wcet_us s.system_current_us).2 = true := hadm
  obtain ⟨h0, hpos, hperiod, hjob⟩ := auEDFSetParams_job hadm'
  unfold setParams
  dsimp only
  rw [hadm', if_pos rfl]
  generalize (auEDFSetParams s.edf t period_us wcet_us s.system_current_us).1 = e at hperiod hjob ⊢
  have hrel : (e.kern.thr t).edf_release_us = s.system_current_us :=
    (congrArg AA64Thread.edf_release_us hjob :)
  have hdl : (e.kern.thr t).edf_deadline_us = s.system_current_us + period_us :=
    (congrArg AA64Thread.edf_deadline_us hjob :)
  refine ⟨⟨(congrArg AA64Thread.edf_enabled hjob :), ⟨0, ?_⟩, ?_⟩, h0, hperiod, hpos, ?_⟩
  · rw [Nat.zero_mul]
    exact congrArg UInt64.toNat hrel
  · dsimp only [PeriodState.thr]
    rw [hrel, hdl, UInt64.toNat_add, Nat.mod_eq_of_lt hfit]
  · dsimp only [PeriodState.thr]
    rw [hrel, Function.update_self, UInt64.toNat_zero, Nat.zero_mul]
    exact Nat.le_refl _

/-- In every run of ticks and calls of `AuEDFWaitPeriod` in which an admitted thread ends no job at
the very time of its deadline, its jobs keep to the timeline of its admission. -/
theorem edf_periods (s : PeriodState) (t : ℕ) (period_us wcet_us : UInt64)
    (hadm : (setParams s t period_us wcet_us).2 = true)
    (hfit : s.system_current_us.toNat + period_us.toNat < 2 ^ 64) (ops : List PeriodOp)
    (h : Respects (Punctual t period_us.toNat) periodStep
      (setParams s t period_us wcet_us).1 ops) :
    OnTimeline (run periodStep (setParams s t period_us wcet_us).1 ops) t
        s.system_current_us.toNat period_us.toNat ∧
      Respects (Periodic t period_us.toNat) periodStep
        (setParams s t period_us wcet_us).1 ops := by
  have hboot := periodInv_setParams hadm hfit
  constructor
  · have hinv := h.invariant (I := fun u => PeriodInv u t s.system_current_us.toNat period_us)
      (fun _ _ hi hok => (hi.step hok).1) hboot
    exact hinv.line
  · exact h.imp (I := fun u => PeriodInv u t s.system_current_us.toNat period_us)
      (fun _ _ hi hok => hi.step hok) hboot

/-- Thread 2 is the only one beside the idle thread 1. -/
def twoThreads : PeriodState := ⟨{ kern := exec 1 [.create 2] }, fun _ => 0, 0⟩

/-- On time at 9, and late at 35. -/
def lateRun : List PeriodOp :=
  [.tick 9, .waitPeriod 2, .tick 11, .tick 35, .waitPeriod 2, .tick 40]

theorem edf_periods_late :
    OnTimeline (run periodStep (setParams twoThreads 2 10 5).1 lateRun) 2 0 10 ∧
      Respects (Periodic 2 10) periodStep (setParams twoThreads 2 10 5).1 lateRun :=
  edf_periods twoThreads 2 10 5 (by decide) (by decide) lateRun (by decide)

/-- A job that ends at its deadline is charged a miss, and a period is skipped. -/
theorem not_edf_periods : ¬ ∀ (s : PeriodState) (t : ℕ) (period_us wcet_us : UInt64),
    (setParams s t period_us wcet_us).2 = true → ∀ ops,
      OnTimeline (run periodStep (setParams s t period_us wcet_us).1 ops) t
          s.system_current_us.toNat period_us.toNat ∧
        Respects (Periodic t period_us.toNat) periodStep
          (setParams s t period_us wcet_us).1 ops := by
  intro h
  have hends := (h twoThreads 2 10 5 (by decide) [.tick 10, .waitPeriod 2]).2.2.1
  have hmiss := (hends.onTime (by decide)).1
  exact absurd hmiss (by decide)

end Edf

end Xeneva.Sched
