import Xeneva.Base.Run

/-!
# Kernel timers and sleeping threads

Both work on absolute times in microseconds, which come from the counter of the processor. No
handler starts or cancels a timer.
-/

namespace Xeneva.Hal.Timer

def AURORA_MAX_TIMER : ℕ := 32

/-- The handler that sends a thread its alarm signal; handler 0 is `NULL`. -/
def alarmCallback : ℕ := 1

structure AuKernelTimer where
  expireUS : ℕ
  intervalUS : ℕ
  handler : ℕ
  param : ℕ
  active : Bool
  owner : ℕ

structure AA64Thread where
  sleepQuanta : ℕ
  sleep_until_us : ℕ

structure State where
  timers : ℕ → AuKernelTimer
  system_current_us : ℕ
  thr : ℕ → AA64Thread
  thread_list : List ℕ
  sleep_list : List ℕ

/-- The microsecond clock at a counter reading; a division by 0 gives 0. -/
def getCurrentUs (freq cnt : ℕ) : ℕ := cnt * 1000000 % 2 ^ 64 / freq

/-! ## Timers -/

def setTimer (s : State) (i : ℕ) (t : AuKernelTimer) : State :=
  { s with timers := Function.update s.timers i t }

@[simp] theorem setTimer_self (s : State) (i : ℕ) (t : AuKernelTimer) :
    (setTimer s i t).timers i = t := Function.update_self _ _ _

theorem setTimer_ne (s : State) {i j : ℕ} (h : j ≠ i) (t : AuKernelTimer) :
    (setTimer s i t).timers j = s.timers j := Function.update_of_ne h _ _

def freeTimer (s : State) : Option ℕ :=
  (List.range AURORA_MAX_TIMER).find? fun i => !(s.timers i).active

/-- A timer that keeps its slot's owner. -/
def armTimer (s : State) (i expireUS intervalUS handler param : ℕ) : State :=
  setTimer s i ⟨expireUS, intervalUS, handler, param, true, (s.timers i).owner⟩

/-- The slot, or -1. Without an index the first free slot is taken. -/
def auroraTimerStart (freq : ℕ) (s : State) (cnt delay_ms handler param : ℕ)
    (idx : Option (Fin AURORA_MAX_TIMER)) : State × ℤ :=
  let expireUS := (getCurrentUs freq cnt + delay_ms * 1000) % 2 ^ 64
  match idx with
  | some i => if (s.timers i).active then (s, -1) else (armTimer s i expireUS 0 handler param, i)
  | none => match freeTimer s with
    | none => (s, -1)
    | some i => (armTimer s i expireUS 0 handler param, i)

def auroraTimerStartPeriodic (freq : ℕ) (s : State) (cnt interval_ms handler param : ℕ) :
    State × ℤ :=
  match freeTimer s with
  | none => (s, -1)
  | some i =>
    (armTimer s i ((getCurrentUs freq cnt + interval_ms * 1000) % 2 ^ 64)
      (interval_ms * 1000 % 2 ^ 64) handler param, i)

def stopTimer (s : State) (i : ℕ) : State := setTimer s i { s.timers i with active := false }

def auroraTimerCancel (s : State) (tNum : ℤ) : State :=
  if 0 ≤ tNum ∧ tNum < AURORA_MAX_TIMER then stopTimer s tNum.toNat else s

/-- The running alarm timer of a thread. -/
def alarmTimer (s : State) (thr : ℕ) : Option ℕ := (List.range AURORA_MAX_TIMER).find? fun i =>
  (s.timers i).active && (s.timers i).owner = thr && (s.timers i).handler = alarmCallback

def disownTimer (s : State) (i : ℕ) : State :=
  setTimer s i { s.timers i with active := false, owner := 0 }

def armAlarm (s : State) (i expireUS intervalUS thr : ℕ) : State :=
  setTimer s i ⟨expireUS, intervalUS, alarmCallback, thr, true, thr⟩

/-- An alarm replaces the alarm that the thread has; `seconds = 0` only takes it away. -/
def auTimerCalculateAlarm (freq : ℕ) (s : State) (cnt thr seconds : ℕ) : State × ℤ :=
  let now := getCurrentUs freq cnt
  let (s, remaining) : State × ℤ := match alarmTimer s thr with
    | none => (s, 0)
    | some i =>
      (disownTimer s i, if now < (s.timers i).expireUS then
        Int.bmod (((s.timers i).expireUS - now + 999999) % 2 ^ 64 / 1000000 : ℕ) (2 ^ 32) else 0)
  if seconds = 0 then (s, remaining)
  else match freeTimer s with
    | none => (s, remaining)
    | some i => (armAlarm s i ((now + seconds * 1000000 % 2 ^ 64) % 2 ^ 64) 0 thr, remaining)

structure Timeval where
  tv_sec : ℕ
  tv_usec : ℕ

def timevalToUs (tv : Timeval) : ℕ := tv.tv_sec * 1000000 + tv.tv_usec

structure Itimerval where
  it_interval : Timeval
  it_value : Timeval

def ITIMER_REAL : ℤ := 0

/-- The setting that was there before is only reported and is left out. -/
def auTimerSetITimer (freq : ℕ) (s : State) (cnt thr : ℕ) (which : ℤ) (newval : Option Itimerval) :
    State × ℤ :=
  if which ≠ ITIMER_REAL then (s, -1)
  else
    let now := getCurrentUs freq cnt
    let idx := alarmTimer s thr
    let value := (newval.map fun v => timevalToUs v.it_value % 2 ^ 64).getD 0
    let interval := (newval.map fun v => timevalToUs v.it_interval % 2 ^ 64).getD 0
    if value = 0 then
      match idx with
      | none => (s, 0)
      | some i => (disownTimer s i, 0)
    else match idx.or (freeTimer s) with
      | none => (s, -1)
      | some i => (armAlarm s i ((now + value) % 2 ^ 64) interval thr, 0)

/-- A slot in the tick's loop; the list collects the slots that fire. -/
def visitTimer (now : ℕ) (r : State × List ℕ) (i : ℕ) : State × List ℕ :=
  let t := r.1.timers i
  if !t.active then r
  else if now < t.expireUS then r
  else
    let t := if 0 < t.intervalUS then { t with expireUS := (now + t.intervalUS) % 2 ^ 64 }
      else { t with active := false }
    (setTimer r.1 i t, r.2 ++ [i])

def auroraTimerTick (freq : ℕ) (s : State) (cnt : ℕ) : State × List ℕ :=
  let now := getCurrentUs freq cnt
  (List.range AURORA_MAX_TIMER).foldl (visitTimer now) ({ s with system_current_us := now }, [])

/-- The time starts at the last tick's reading. A sleeping thread does not call this. -/
def auSleepThread (s : State) (thread ms : ℕ) : State :=
  if thread ∈ s.sleep_list then s
  else { s with
    thr := Function.update s.thr thread
      ⟨ms, (s.system_current_us + ms * 1000 % 2 ^ 64) % 2 ^ 64⟩
    thread_list := s.thread_list.erase thread
    sleep_list := s.sleep_list ++ [thread] }

/-- A thread becomes ready, whether or not its time has come. -/
def auThreadMakeReady (s : State) (thread : ℕ) : State :=
  if thread ∉ s.sleep_list then s
  else { s with
    thr := Function.update s.thr thread { s.thr thread with sleepQuanta := 0 }
    sleep_list := s.sleep_list.erase thread
    thread_list := s.thread_list ++ [thread] }

/-- A thread in the walk over the sleeping ones. -/
def handleSleepThread (s : State) (thread : ℕ) : State :=
  let t := s.thr thread
  let quanta := if 0 < t.sleepQuanta ∧ t.sleep_until_us ≤ s.system_current_us then 0
    else t.sleepQuanta
  let s := { s with thr := Function.update s.thr thread { t with sleepQuanta := quanta } }
  if quanta = 0 then { s with
    sleep_list := s.sleep_list.erase thread
    thread_list := s.thread_list ++ [thread] }
  else s

def auHandleSleepThreads (s : State) : State := s.sleep_list.foldl handleSleepThread s

/-- What reads or changes timers and sleeping threads; `tick` is the timer interrupt, which runs
the expired timers and then the scheduler, and `schedule` is the scheduler alone. -/
inductive TimerOp
  | tick (cnt : ℕ)
  | schedule
  | start (cnt delay_ms handler param : ℕ) (idx : Option (Fin AURORA_MAX_TIMER))
  | startPeriodic (cnt interval_ms handler param : ℕ)
  | cancel (tNum : ℤ)
  | alarm (cnt thr seconds : ℕ)
  | setITimer (cnt thr : ℕ) (which : ℤ) (newval : Option Itimerval)
  | sleep (thread ms : ℕ)
  | makeReady (thread : ℕ)

/-- The state after the step, and the timers that fired. -/
def timerStep (freq : ℕ) (s : State) : TimerOp → State × List ℕ
  | .tick cnt =>
    let r := auroraTimerTick freq s cnt
    (auHandleSleepThreads r.1, r.2)
  | .schedule => (auHandleSleepThreads s, [])
  | .start cnt delay_ms handler param idx =>
    ((auroraTimerStart freq s cnt delay_ms handler param idx).1, [])
  | .startPeriodic cnt interval_ms handler param =>
    ((auroraTimerStartPeriodic freq s cnt interval_ms handler param).1, [])
  | .cancel tNum => (auroraTimerCancel s tNum, [])
  | .alarm cnt thr seconds => ((auTimerCalculateAlarm freq s cnt thr seconds).1, [])
  | .setITimer cnt thr which newval => ((auTimerSetITimer freq s cnt thr which newval).1, [])
  | .sleep thread ms => (auSleepThread s thread ms, [])
  | .makeReady thread => (auThreadMakeReady s thread, [])

/-- No timer is active, and no thread sleeps. -/
def bootTimers (threads : List ℕ) : State where
  timers _ := ⟨0, 0, 0, 0, false, 0⟩
  system_current_us := 0
  thr _ := ⟨0, 0⟩
  thread_list := threads
  sleep_list := []

end Xeneva.Hal.Timer

/-!
# Deadlines

Beside the kernel stand the deadlines as exact times, which do not wrap. A timer fires and a
sleeping thread wakes in the first tick at or past its deadline, as long as the conversion of the
counter does not wrap.
-/

namespace Xeneva.Hal.Timer

open Xeneva.Base

variable {freq : ℕ} {s t : State}

/-! ## The property -/

/-- The time of a counter reading. -/
def exactUs (freq cnt : ℕ) : ℕ := cnt * 1000000 / freq

/-- The kernel and the deadlines: of the timers, of the sleeping threads, the time of the last
tick, and the last reading of the counter. -/
structure Clocked where
  kern : State
  due : ℕ → ℕ
  wake : ℕ → ℕ
  lastTick : ℕ
  counter : ℕ

/-- The counter reading that a call makes. -/
def reading : TimerOp → Option ℕ
  | .tick cnt => some cnt
  | .schedule => none
  | .start cnt _ _ _ _ => some cnt
  | .startPeriodic cnt _ _ _ => some cnt
  | .cancel _ => none
  | .alarm cnt _ _ => some cnt
  | .setITimer cnt _ _ _ => some cnt
  | .sleep _ _ => none
  | .makeReady _ => none

/-- The slot that a call arms, with the counter reading and the delay. -/
def arming (s : State) : TimerOp → Option (ℕ × ℕ × ℕ)
  | .start cnt delay_ms _ _ idx =>
    match idx with
    | some i => if (s.timers i).active then none else some (i, cnt, delay_ms * 1000)
    | none => (freeTimer s).map fun i => (i, cnt, delay_ms * 1000)
  | .startPeriodic cnt interval_ms _ _ => (freeTimer s).map fun i => (i, cnt, interval_ms * 1000)
  | .alarm cnt thr seconds =>
    if seconds = 0 then none
    else (freeTimer (((alarmTimer s thr).map (disownTimer s)).getD s)).map
      fun i => (i, cnt, seconds * 1000000)
  | .setITimer cnt thr which newval =>
    if which ≠ ITIMER_REAL then none
    else newval.bind fun v =>
      if timevalToUs v.it_value = 0 then none
      else ((alarmTimer s thr).or (freeTimer s)).map fun i => (i, cnt, timevalToUs v.it_value)
  | _ => none

/-- A periodic timer is armed again by the tick in which it is due. -/
def dueStep (freq : ℕ) (c : Clocked) (op : TimerOp) (i : ℕ) : ℕ :=
  match op with
  | .tick cnt =>
    if (c.kern.timers i).active ∧ c.due i ≤ exactUs freq cnt then
      exactUs freq cnt + (c.kern.timers i).intervalUS
    else c.due i
  | op => match arming c.kern op with
    | none => c.due i
    | some (j, cnt, delay) => if i = j then exactUs freq cnt + delay else c.due i

def wakeStep (c : Clocked) (op : TimerOp) (thread : ℕ) : ℕ :=
  match op with
  | .sleep t ms =>
    if thread = t ∧ t ∉ c.kern.sleep_list then c.lastTick + ms * 1000 else c.wake thread
  | _ => c.wake thread

def clockedStep (freq : ℕ) (c : Clocked) (op : TimerOp) : Clocked where
  kern := (timerStep freq c.kern op).1
  due := dueStep freq c op
  wake := wakeStep c op
  lastTick := match op with
    | .tick cnt => exactUs freq cnt
    | _ => c.lastTick
  counter := (reading op).getD c.counter

/-- The clock does not go backwards, and a tick fires just the timers and wakes just the threads
whose deadlines it has reached; between ticks no thread wakes before its deadline. -/
structure OnTime (freq : ℕ) (c : Clocked) (op : TimerOp) : Prop where
  clock : ∀ cnt ∈ reading op, getCurrentUs freq c.counter ≤ getCurrentUs freq cnt
  fires : ∀ cnt, op = .tick cnt → ∀ i, i < AURORA_MAX_TIMER → (c.kern.timers i).active →
    (i ∈ (timerStep freq c.kern op).2 ↔ c.due i ≤ exactUs freq cnt)
  wakes : ∀ cnt, op = .tick cnt → ∀ t ∈ c.kern.sleep_list,
    (t ∈ (timerStep freq c.kern op).1.thread_list ∧ t ∉ (timerStep freq c.kern op).1.sleep_list ↔
      c.wake t ≤ exactUs freq cnt)
  early : op = .schedule → ∀ t ∈ c.kern.sleep_list,
    t ∉ (timerStep freq c.kern op).1.sleep_list → c.wake t ≤ c.lastTick

/-- The counter does not run backwards. -/
def Counts (c : Clocked) (op : TimerOp) : Prop := ∀ cnt ∈ reading op, c.counter ≤ cnt

/-- The times that a call takes from its arguments or from the timers do not wrap. -/
def Apart (freq : ℕ) (c : Clocked) : TimerOp → Prop
  | .tick cnt => ∀ i, i < AURORA_MAX_TIMER → (c.kern.timers i).active →
    (c.kern.timers i).expireUS ≤ getCurrentUs freq cnt → 0 < (c.kern.timers i).intervalUS →
      exactUs freq cnt + (c.kern.timers i).intervalUS < 2 ^ 64
  | .setITimer _ _ _ newval => ∀ v ∈ newval,
    timevalToUs v.it_value < 2 ^ 64 ∧ timevalToUs v.it_interval < 2 ^ 64
  | .sleep _ ms => c.lastTick + ms * 1000 < 2 ^ 64
  | _ => True

instance (freq : ℕ) (c : Clocked) : ∀ op, Decidable (Apart freq c op)
  | .tick cnt => inferInstanceAs (Decidable (∀ i, i < AURORA_MAX_TIMER →
      (c.kern.timers i).active → (c.kern.timers i).expireUS ≤ getCurrentUs freq cnt →
        0 < (c.kern.timers i).intervalUS →
          exactUs freq cnt + (c.kern.timers i).intervalUS < 2 ^ 64))
  | .setITimer _ _ _ newval => inferInstanceAs (Decidable (∀ v ∈ newval,
      timevalToUs v.it_value < 2 ^ 64 ∧ timevalToUs v.it_interval < 2 ^ 64))
  | .sleep _ ms => inferInstanceAs (Decidable (c.lastTick + ms * 1000 < 2 ^ 64))
  | .schedule => inferInstanceAs (Decidable True)
  | .start _ _ _ _ _ => inferInstanceAs (Decidable True)
  | .startPeriodic _ _ _ _ => inferInstanceAs (Decidable True)
  | .cancel _ => inferInstanceAs (Decidable True)
  | .alarm _ _ _ => inferInstanceAs (Decidable True)
  | .makeReady _ => inferInstanceAs (Decidable True)

/-- Neither the conversion of the counter nor a deadline wraps. -/
def Fits (freq : ℕ) (c : Clocked) (op : TimerOp) : Prop :=
  (∀ cnt ∈ reading op, cnt * 1000000 < 2 ^ 64) ∧
  (∀ a ∈ arming c.kern op, exactUs freq a.2.1 + a.2.2 < 2 ^ 64) ∧ Apart freq c op

instance (c : Clocked) (op : TimerOp) : Decidable (Counts c op) :=
  inferInstanceAs (Decidable (∀ cnt ∈ reading op, _))

instance (freq : ℕ) (c : Clocked) (op : TimerOp) : Decidable (Fits freq c op) :=
  inferInstanceAs (Decidable (_ ∧ _ ∧ _))

/-- A sleeping thread has its deadline, or it is past and the thread has no quanta left. -/
def Awaits (t : AA64Thread) (wake lastTick : ℕ) : Prop :=
  if t.sleepQuanta = 0 then wake ≤ lastTick else t.sleep_until_us = wake

structure ClockInv (freq : ℕ) (c : Clocked) : Prop where
  due : ∀ i, i < AURORA_MAX_TIMER → (c.kern.timers i).active →
    (c.kern.timers i).expireUS = c.due i
  now : c.kern.system_current_us = c.lastTick
  tick : c.lastTick ≤ exactUs freq c.counter
  count : c.counter * 1000000 < 2 ^ 64
  nodup : c.kern.sleep_list.Nodup
  wake : ∀ t ∈ c.kern.sleep_list, Awaits (c.kern.thr t) (c.wake t) c.lastTick

theorem getCurrentUs_eq {cnt : ℕ} (h : cnt * 1000000 < 2 ^ 64) :
    getCurrentUs freq cnt = exactUs freq cnt := by
  rw [getCurrentUs, exactUs, Nat.mod_eq_of_lt h]

theorem exactUs_mono {a b : ℕ} (h : a ≤ b) : exactUs freq a ≤ exactUs freq b :=
  Nat.div_le_div_right (Nat.mul_le_mul_right _ h)

def expired (now : ℕ) (t : AuKernelTimer) : Prop := t.active ∧ t.expireUS ≤ now

instance (now : ℕ) (t : AuKernelTimer) : Decidable (expired now t) :=
  inferInstanceAs (Decidable (_ ∧ _))

/-- What the tick leaves of a timer that fires. -/
def refreshed (now : ℕ) (t : AuKernelTimer) : AuKernelTimer :=
  if 0 < t.intervalUS then { t with expireUS := (now + t.intervalUS) % 2 ^ 64 }
  else { t with active := false }

theorem visitTimer_eq (now : ℕ) (r : State × List ℕ) (i : ℕ) : visitTimer now r i =
    if expired now (r.1.timers i) then
      (setTimer r.1 i (refreshed now (r.1.timers i)), r.2 ++ [i])
    else r := by
  unfold visitTimer
  simp only
  by_cases he : expired now (r.1.timers i)
  · rw [if_pos he, if_neg (by simp [he.1]), if_neg (Nat.not_lt.mpr he.2)]
    rfl
  · rw [if_neg he]
    split
    · rfl
    case isFalse ha =>
      apply if_pos
      by_contra hn
      exact he ⟨by simpa using ha, Nat.not_lt.mp hn⟩

/-- The loop handles each of its slots once. -/
theorem visit_spec (now : ℕ) (l : List ℕ) (hl : l.Nodup) (r : State × List ℕ) :
    let u := l.foldl (visitTimer now) r
    (∀ j, u.1.timers j = if j ∈ l ∧ expired now (r.1.timers j) then
      refreshed now (r.1.timers j) else r.1.timers j) ∧
    (∀ j, j ∈ u.2 ↔ j ∈ r.2 ∨ j ∈ l ∧ expired now (r.1.timers j)) ∧
    u.1.system_current_us = r.1.system_current_us ∧ u.1.thr = r.1.thr ∧
    u.1.thread_list = r.1.thread_list ∧ u.1.sleep_list = r.1.sleep_list := by
  induction l generalizing r with
  | nil => simp
  | cons i l ih =>
    obtain ⟨hi, hl⟩ := List.nodup_cons.mp hl
    rw [List.foldl_cons, visitTimer_eq]
    split
    case isTrue he =>
      have hih := ih hl (setTimer r.1 i (refreshed now (r.1.timers i)), r.2 ++ [i])
      have hne : ∀ j, j ≠ i → (setTimer r.1 i (refreshed now (r.1.timers i))).timers j =
          r.1.timers j := fun j hj => setTimer_ne r.1 hj _
      refine ⟨fun j => ?_, fun j => ?_, hih.2.2⟩
      · rw [hih.1 j]
        by_cases hj : j = i
        · simp [hj, hi, he]
        · simp [hj, hne j hj]
      · rw [hih.2.1 j]
        by_cases hj : j = i
        · simp [hj, hi, he]
        · simp [hj, hne j hj]
    case isFalse he =>
      have hih := ih hl r
      refine ⟨fun j => ?_, fun j => ?_, hih.2.2⟩
      · rw [hih.1 j]
        by_cases hj : j = i
        · simp [hj, he]
        · simp [hj]
      · rw [hih.2.1 j]
        by_cases hj : j = i
        · simp [hj, he]
        · simp [hj]

theorem auroraTimerTick_spec (freq : ℕ) (s : State) (cnt : ℕ) :
    let now := getCurrentUs freq cnt
    let u := auroraTimerTick freq s cnt
    (∀ j, j < AURORA_MAX_TIMER → u.1.timers j = if expired now (s.timers j) then
      refreshed now (s.timers j) else s.timers j) ∧
    (∀ j, j < AURORA_MAX_TIMER → (j ∈ u.2 ↔ expired now (s.timers j))) ∧
    u.1.system_current_us = now ∧ u.1.thr = s.thr ∧ u.1.sleep_list = s.sleep_list := by
  have hmem : ∀ j, j < AURORA_MAX_TIMER → j ∈ List.range AURORA_MAX_TIMER := fun j =>
    List.mem_range.mpr
  have hnodup : (List.range AURORA_MAX_TIMER).Nodup := List.nodup_range
  unfold auroraTimerTick
  generalize List.range AURORA_MAX_TIMER = l at hmem hnodup
  obtain ⟨htimers, hfired, hsys, hthr, -, hsleep⟩ := visit_spec (getCurrentUs freq cnt) l hnodup
    ({ s with system_current_us := getCurrentUs freq cnt }, [])
  refine ⟨fun j hj => ?_, fun j hj => ?_, hsys, hthr, hsleep⟩
  · rw [htimers j]
    simp only [hmem j hj, true_and]
  · rw [hfired j]
    simp only [hmem j hj, true_and, List.not_mem_nil, false_or]

def ripe (s : State) (thread : ℕ) : Prop :=
  (s.thr thread).sleepQuanta = 0 ∨ (s.thr thread).sleep_until_us ≤ s.system_current_us

/-- The walk over `l` took the ripe threads of `l` out of the sleep list. -/
structure Walked (l : List ℕ) (s u : State) : Prop where
  timers : u.timers = s.timers
  now : u.system_current_us = s.system_current_us
  nodup : u.sleep_list.Nodup
  sleep : ∀ t, t ∈ u.sleep_list ↔ t ∈ s.sleep_list ∧ ¬(t ∈ l ∧ ripe s t)
  ready : ∀ t, t ∈ u.thread_list ↔ t ∈ s.thread_list ∨ t ∈ l ∧ ripe s t
  thr : ∀ t, ¬(t ∈ l ∧ ripe s t) → u.thr t = s.thr t

theorem Walked.nil (hs : s.sleep_list.Nodup) : Walked [] s s :=
  ⟨rfl, rfl, hs, by simp, by simp, fun _ _ => rfl⟩

/-- One thread of the walk. -/
theorem handleSleepThread_walked (hs : s.sleep_list.Nodup) (i : ℕ) :
    Walked [i] s (handleSleepThread s i) := by
  unfold handleSleepThread
  simp only
  by_cases hr : ripe s i
  · have hq : (if 0 < (s.thr i).sleepQuanta ∧ (s.thr i).sleep_until_us ≤ s.system_current_us then 0
        else (s.thr i).sleepQuanta) = 0 := by
      split
      · rfl
      case isFalse h =>
        rcases hr with h0 | hle
        · exact h0
        · by_contra hne
          exact h ⟨Nat.pos_of_ne_zero hne, hle⟩
    rw [hq, if_pos rfl]
    refine ⟨rfl, rfl, hs.erase i, fun t => ?_, fun t => ?_, fun t ht => ?_⟩
    · rw [hs.mem_erase_iff, List.mem_singleton]
      constructor
      · intro h
        exact ⟨h.2, fun hc => h.1 hc.1⟩
      · intro h
        exact ⟨fun he => h.2 ⟨he, he ▸ hr⟩, h.1⟩
    · rw [List.mem_append, List.mem_singleton]
      apply or_congr_right
      constructor
      · intro h
        exact ⟨h, h ▸ hr⟩
      · exact And.left
    · apply Function.update_of_ne
      intro he
      exact ht ⟨List.mem_singleton.mpr he, he ▸ hr⟩
  · obtain ⟨h0, hle⟩ := not_or.mp hr
    have hq : (if 0 < (s.thr i).sleepQuanta ∧ (s.thr i).sleep_until_us ≤ s.system_current_us then 0
        else (s.thr i).sleepQuanta) = (s.thr i).sleepQuanta := if_neg fun h => hle h.2
    rw [hq, if_neg h0]
    have hsame : ({ s.thr i with sleepQuanta := (s.thr i).sleepQuanta } : AA64Thread) = s.thr i :=
      rfl
    rw [hsame, Function.update_eq_self]
    have hno : ∀ t, ¬(t ∈ [i] ∧ ripe s t) := by
      intro t ht
      exact hr (List.mem_singleton.mp ht.1 ▸ ht.2)
    refine ⟨rfl, rfl, hs, fun t => ?_, fun t => ?_, fun _ _ => rfl⟩
    · exact (and_iff_left (hno t)).symm
    · exact (or_iff_left (hno t)).symm

/-- A thread that the walk passes is as ripe for the rest of it. -/
theorem Walked.cons {i : ℕ} {l : List ℕ} {u : State} (h : Walked [i] s t) (h' : Walked l t u)
    (hi : i ∉ l) : Walked (i :: l) s u := by
  have hripe : ∀ j, j ∈ l → (ripe t j ↔ ripe s j) := by
    intro j hj
    have hji : j ≠ i := fun he => hi (he ▸ hj)
    have hthr := h.thr j fun hc => hji (List.mem_singleton.mp hc.1)
    rw [ripe, ripe, hthr, h.now]
  have hmem : ∀ j, j ∈ i :: l ∧ ripe s j ↔ (j ∈ [i] ∧ ripe s j) ∨ (j ∈ l ∧ ripe t j) := by
    intro j
    rw [List.mem_cons, List.mem_singleton, or_and_right]
    apply or_congr_right
    exact and_congr_right fun hj => (hripe j hj).symm
  refine ⟨h'.timers.trans h.timers, h'.now.trans h.now, h'.nodup, fun j => ?_, fun j => ?_,
    fun j hj => ?_⟩
  · rw [h'.sleep, h.sleep, hmem, not_or, and_assoc]
  · rw [h'.ready, h.ready, hmem, or_assoc]
  · rw [hmem, not_or] at hj
    rw [h'.thr j hj.2, h.thr j hj.1]

theorem walk_spec (l : List ℕ) (hl : l.Nodup) (s : State) (hs : s.sleep_list.Nodup) :
    Walked l s (l.foldl handleSleepThread s) := by
  induction l generalizing s with
  | nil => exact Walked.nil hs
  | cons i l ih =>
    obtain ⟨hi, hl⟩ := List.nodup_cons.mp hl
    have h := handleSleepThread_walked hs i
    exact h.cons (ih hl _ h.nodup) hi

/-! ## Calls that arm a timer -/

/-- Threads are left alone, and of the active timers only the armed one has a new time. -/
structure Arms (freq : ℕ) (s t : State) (a : Option (ℕ × ℕ × ℕ)) : Prop where
  now : t.system_current_us = s.system_current_us
  thr : t.thr = s.thr
  sleep : t.sleep_list = s.sleep_list
  timers : ∀ j, (t.timers j).active → match a with
    | some (i, cnt, delay) => if j = i
      then (t.timers j).expireUS = (getCurrentUs freq cnt + delay) % 2 ^ 64
      else (s.timers j).active ∧ (t.timers j).expireUS = (s.timers j).expireUS
    | none => (s.timers j).active ∧ (t.timers j).expireUS = (s.timers j).expireUS

theorem Arms.refl (s : State) : Arms freq s s none := ⟨rfl, rfl, rfl, fun _ h => ⟨h, rfl⟩⟩

theorem Arms.stop (s : State) (i : ℕ) {tm : AuKernelTimer} (h : tm.active = false) :
    Arms freq s (setTimer s i tm) none := by
  refine ⟨rfl, rfl, rfl, fun j hj => ?_⟩
  by_cases hji : j = i
  · rw [hji, setTimer_self, h] at hj
    exact absurd hj Bool.false_ne_true
  · rw [setTimer_ne s hji] at hj ⊢
    exact ⟨hj, rfl⟩

theorem Arms.arm (s : State) {i cnt delay : ℕ} {tm : AuKernelTimer}
    (h : tm.expireUS = (getCurrentUs freq cnt + delay) % 2 ^ 64) :
    Arms freq s (setTimer s i tm) (some (i, cnt, delay)) := by
  refine ⟨rfl, rfl, rfl, fun j hj => ?_⟩
  show if j = i then _ else _
  by_cases hji : j = i
  · rw [if_pos hji, hji, setTimer_self]
    exact h
  · rw [setTimer_ne s hji] at hj
    rw [if_neg hji, setTimer_ne s hji]
    exact ⟨hj, rfl⟩

theorem Arms.trans {u : State} {a : Option (ℕ × ℕ × ℕ)} (h : Arms freq s t none)
    (h' : Arms freq t u a) : Arms freq s u a := by
  refine ⟨h'.now.trans h.now, h'.thr.trans h.thr, h'.sleep.trans h.sleep, fun j hj => ?_⟩
  have hsame : (t.timers j).active ∧ (u.timers j).expireUS = (t.timers j).expireUS →
      (s.timers j).active ∧ (u.timers j).expireUS = (s.timers j).expireUS := by
    intro hu
    have ht := h.timers j hu.1
    exact ⟨ht.1, hu.2.trans ht.2⟩
  have hu := h'.timers j hj
  match a with
  | none => exact hsame hu
  | some (i, cnt, delay) =>
    show if j = i then _ else _
    change if j = i then _ else _ at hu
    by_cases hji : j = i
    · rw [if_pos hji] at hu ⊢
      exact hu
    · rw [if_neg hji] at hu ⊢
      exact hsame hu

theorem arms_start (s : State) (cnt delay_ms handler param : ℕ)
    (idx : Option (Fin AURORA_MAX_TIMER)) :
    Arms freq s (auroraTimerStart freq s cnt delay_ms handler param idx).1
      (arming s (.start cnt delay_ms handler param idx)) := by
  unfold auroraTimerStart arming
  cases idx with
  | some i =>
    simp only
    split
    · exact .refl s
    · exact .arm s rfl
  | none =>
    cases freeTimer s with
    | none => exact .refl s
    | some i => exact .arm s rfl

theorem arms_startPeriodic (s : State) (cnt interval_ms handler param : ℕ) :
    Arms freq s (auroraTimerStartPeriodic freq s cnt interval_ms handler param).1
      (arming s (.startPeriodic cnt interval_ms handler param)) := by
  unfold auroraTimerStartPeriodic arming
  cases freeTimer s with
  | none => exact .refl s
  | some i => exact .arm s rfl

theorem arms_cancel (s : State) (tNum : ℤ) :
    Arms freq s (auroraTimerCancel s tNum) (arming s (.cancel tNum)) := by
  unfold auroraTimerCancel
  split
  · exact .stop s _ rfl
  · exact .refl s

theorem arms_alarm (s : State) (cnt thr seconds : ℕ) :
    Arms freq s (auTimerCalculateAlarm freq s cnt thr seconds).1
      (arming s (.alarm cnt thr seconds)) := by
  have hexp : ∀ now, (now + seconds * 1000000 % 2 ^ 64) % 2 ^ 64 =
      (now + seconds * 1000000) % 2 ^ 64 := fun now => Nat.add_mod_mod _ _ _
  have harm : ∀ u : State, ∀ remaining : ℤ, Arms freq u
      (if seconds = 0 then (u, remaining)
        else match freeTimer u with
        | none => (u, remaining)
        | some i => (armAlarm u i ((getCurrentUs freq cnt + seconds * 1000000 % 2 ^ 64) % 2 ^ 64)
          0 thr, remaining)).1
      (if seconds = 0 then none else (freeTimer u).map fun i => (i, cnt, seconds * 1000000)) := by
    intro u remaining
    split
    · exact .refl u
    · cases freeTimer u with
      | none => exact .refl u
      | some i => exact .arm u (hexp _)
  simp only [auTimerCalculateAlarm, arming]
  cases ha : alarmTimer s thr with
  | none =>
    simp only [Option.map_none, Option.getD_none]
    exact harm s 0
  | some i =>
    simp only [Option.map_some, Option.getD_some]
    have hstop : Arms freq s (disownTimer s i) none := .stop s i rfl
    exact hstop.trans (harm (disownTimer s i) _)

theorem arms_setITimer (s : State) (cnt thr : ℕ) (which : ℤ) (newval : Option Itimerval)
    (h : ∀ v ∈ newval, timevalToUs v.it_value < 2 ^ 64) :
    Arms freq s (auTimerSetITimer freq s cnt thr which newval).1
      (arming s (.setITimer cnt thr which newval)) := by
  have hdisown : Arms freq s (match alarmTimer s thr with
      | none => (s, (0 : ℤ))
      | some i => (disownTimer s i, 0)).1 none := by
    cases alarmTimer s thr with
    | none => exact .refl s
    | some i => exact .stop s i rfl
  unfold auTimerSetITimer arming
  simp only
  split
  · exact .refl s
  · cases newval with
    | none => exact hdisown
    | some v =>
      -- a step by definition would unfold the product with the numeral
      rw [Option.map_some, Option.getD_some, Option.bind_some, Nat.mod_eq_of_lt (h v rfl)]
      split
      · exact hdisown
      · cases (alarmTimer s thr).or (freeTimer s) with
        | none => exact .refl s
        | some i => exact .arm s rfl

end Xeneva.Hal.Timer
