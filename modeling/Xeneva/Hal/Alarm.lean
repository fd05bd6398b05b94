import Xeneva.Hal.Deadlines

/-!
# Alarms

A thread's end finds its alarm timer by the parameter alone, and stale parameters stay in the
table. A timer takes the first free slot, so below a thread's alarm no slot holds its parameter.
-/

namespace Xeneva.Hal.Timer

open Xeneva.Base

variable {freq : ℕ} {thread : ℕ → Prop} {s u : State}

/-- The first slot with the parameter, whether or not it is active. -/
def auGetTimerByThread (s : State) (param : ℕ) : ℤ :=
  match (List.range AURORA_MAX_TIMER).find? fun i => (s.timers i).param = param with
  | some i => i
  | none => -1

/-- What the end of a thread does to the timers. -/
def auProcessFreeKeResource (s : State) (thr : ℕ) : State :=
  let timer_id := auGetTimerByThread s thr
  if timer_id ≠ -1 then auroraTimerCancel s timer_id else s

/-- The timer in the slot will signal the thread. -/
structure Signals (s : State) (i thr : ℕ) : Prop where
  slot : i < AURORA_MAX_TIMER
  active : (s.timers i).active
  handler : (s.timers i).handler = alarmCallback
  param : (s.timers i).param = thr

/-- Alarms are for threads, and other timers take any free slot, have another handler and no
thread as parameter. -/
def Proper (thread : ℕ → Prop) : TimerOp → Prop
  | .start _ _ handler param idx => idx = none ∧ handler ≠ alarmCallback ∧ ¬thread param
  | .startPeriodic _ _ handler param => handler ≠ alarmCallback ∧ ¬thread param
  | .alarm _ thr _ => thread thr
  | .setITimer _ thr _ _ => thread thr
  | _ => True

/-- The thread has the alarm with the given time and interval, or none, and the other timers go
on as before. -/
structure AlarmSet (s u : State) (thr : ℕ) (a : Option (ℕ × ℕ)) : Prop where
  own : ∀ b, b ∈ a ↔ ∃ i, Signals u i thr ∧ b = ((u.timers i).expireUS, (u.timers i).intervalUS)
  others : ∀ i, (s.timers i).active → ¬Signals s i thr → u.timers i = s.timers i

/-- A slot is free, or becomes free when the thread's alarm is replaced. -/
def Room (s : State) (thr : ℕ) : Prop :=
  ∃ i, i < AURORA_MAX_TIMER ∧ ((s.timers i).active = false ∨ Signals s i thr)

/-- A call sets the alarm, or it leaves everything as it is when there is no room. -/
def Sets (s u : State) (thr : ℕ) (a : Option (ℕ × ℕ)) : Prop :=
  (a = none ∨ Room s thr → AlarmSet s u thr a) ∧ (¬Room s thr → u = s)

/-- The alarm that `auTimerSetITimer` is asked for. -/
def itimerAlarm (freq cnt : ℕ) (newval : Option Itimerval) : Option (ℕ × ℕ) :=
  newval.bind fun v =>
    if timevalToUs v.it_value % 2 ^ 64 = 0 then none
    else some ((getCurrentUs freq cnt + timevalToUs v.it_value % 2 ^ 64) % 2 ^ 64,
      timevalToUs v.it_interval % 2 ^ 64)

/-- The alarm that `auTimerCalculateAlarm` is asked for. -/
def secondsAlarm (freq cnt seconds : ℕ) : Option (ℕ × ℕ) :=
  if seconds = 0 then none
  else some ((getCurrentUs freq cnt + seconds * 1000000 % 2 ^ 64) % 2 ^ 64, 0)

/-- A thread has one alarm timer at most, which is found by the thread; setting one replaces it,
and the thread's end cancels it. -/
structure OneAlarm (freq : ℕ) (s : State) (thr : ℕ) : Prop where
  single : ∀ i j, Signals s i thr → Signals s j thr → i = j
  found : ∀ i, Signals s i thr → auGetTimerByThread s thr = i
  alarm : ∀ cnt seconds, Sets s (auTimerCalculateAlarm freq s cnt thr seconds).1 thr
    (secondsAlarm freq cnt seconds)
  setITimer : ∀ cnt newval, Sets s (auTimerSetITimer freq s cnt thr ITIMER_REAL newval).1 thr
    (itimerAlarm freq cnt newval)
  ended : ∀ i, ¬Signals (auProcessFreeKeResource s thr) i thr

/-- Active timers with a thread as parameter are alarms, and no slot below one has its
parameter. -/
structure AlarmTable (thread : ℕ → Prop) (s : State) : Prop where
  alarm : ∀ i, i < AURORA_MAX_TIMER → (s.timers i).active →
    ((s.timers i).handler = alarmCallback ↔ thread (s.timers i).param)
  owner : ∀ i, i < AURORA_MAX_TIMER → (s.timers i).active → thread (s.timers i).param →
    (s.timers i).owner = (s.timers i).param
  first : ∀ i, i < AURORA_MAX_TIMER → (s.timers i).active → thread (s.timers i).param →
    ∀ j, j < i → (s.timers j).param ≠ (s.timers i).param

theorem Signals.first {i thr : ℕ} (h : Signals s i thr) (hs : AlarmTable thread s)
    (ht : thread thr) {j : ℕ} (hj : j < i) : (s.timers j).param ≠ thr := by
  rw [← h.param]
  apply hs.first i h.slot h.active _ j hj
  rwa [h.param]

theorem AlarmTable.single (h : AlarmTable thread s) {i j thr : ℕ} (ht : thread thr)
    (hi : Signals s i thr) (hj : Signals s j thr) : i = j := by
  apply le_antisymm
  · by_contra hlt
    exact hi.first h ht (not_le.mp hlt) hj.param
  · by_contra hlt
    exact hj.first h ht (not_le.mp hlt) hi.param

theorem AlarmTable.found (h : AlarmTable thread s) {i thr : ℕ} (ht : thread thr)
    (hi : Signals s i thr) : auGetTimerByThread s thr = i := by
  have hfind : ((List.range AURORA_MAX_TIMER).find? fun i => (s.timers i).param = thr) =
      some i := by
    rw [List.find?_range_eq_some]
    refine ⟨by simpa using hi.param, List.mem_range.mpr hi.slot, fun j hj => ?_⟩
    simpa using hi.first h ht hj
  simp only [auGetTimerByThread, hfind]

/-- The search by owner and handler finds the timer that signals the thread. -/
theorem AlarmTable.alarmTimer_eq (h : AlarmTable thread s) {thr : ℕ} (ht : thread thr) (i : ℕ) :
    alarmTimer s thr = some i ↔ Signals s i thr := by
  have hmem : ∀ j, j < AURORA_MAX_TIMER → (((s.timers j).active &&
      (s.timers j).owner = thr && (s.timers j).handler = alarmCallback) = true ↔
      Signals s j thr) := by
    intro j hj
    simp only [Bool.and_eq_true, decide_eq_true_eq]
    constructor
    · intro ⟨⟨ha, ho⟩, hh⟩
      exact ⟨hj, ha, hh, (h.owner j hj ha ((h.alarm j hj ha).mp hh)).symm.trans ho⟩
    · intro hs
      exact ⟨⟨hs.active, (h.owner j hj hs.active (hs.param ▸ ht)).trans hs.param⟩, hs.handler⟩
  rw [alarmTimer, List.find?_range_eq_some]
  constructor
  · intro ⟨hp, hi, _⟩
    exact (hmem i (List.mem_range.mp hi)).mp hp
  · intro hs
    refine ⟨(hmem i hs.slot).mpr hs, List.mem_range.mpr hs.slot, fun j hj => ?_⟩
    rw [Bool.not_eq_true', ← Bool.not_eq_true, hmem j (hj.trans hs.slot)]
    exact fun hj' => hs.first h ht hj hj'.param

theorem AlarmTable.alarmTimer_none (h : AlarmTable thread s) {thr : ℕ} (ht : thread thr) :
    alarmTimer s thr = none ↔ ∀ i, ¬Signals s i thr := by
  rw [Option.eq_none_iff_forall_ne_some]
  exact forall_congr' fun i => not_congr (h.alarmTimer_eq ht i)

theorem freeTimer_some {i : ℕ} : freeTimer s = some i ↔
    i < AURORA_MAX_TIMER ∧ (s.timers i).active = false ∧ ∀ j, j < i → (s.timers j).active := by
  rw [freeTimer, List.find?_range_eq_some, List.mem_range]
  simp only [Bool.not_eq_true', Bool.not_not]
  exact and_left_comm

theorem freeTimer_none : freeTimer s = none ↔
    ∀ i, i < AURORA_MAX_TIMER → (s.timers i).active := by
  rw [freeTimer, List.find?_eq_none]
  simp only [List.mem_range, Bool.not_eq_true', Bool.not_eq_false]

/-! ## Steps -/

theorem alarmTable_boot (threads : List ℕ) : AlarmTable thread (bootTimers threads) :=
  ⟨nofun, nofun, nofun⟩

/-- Timers that stop or get a new time keep the table. -/
theorem AlarmTable.weaken (h : AlarmTable thread s)
    (hp : ∀ i, i < AURORA_MAX_TIMER → (u.timers i).param = (s.timers i).param)
    (ha : ∀ i, i < AURORA_MAX_TIMER → (u.timers i).active → (s.timers i).active ∧
      (u.timers i).handler = (s.timers i).handler ∧ (u.timers i).owner = (s.timers i).owner) :
    AlarmTable thread u := by
  constructor
  · intro i hi hu
    obtain ⟨hs, hh, -⟩ := ha i hi hu
    rw [hp i hi, hh]
    exact h.alarm i hi hs
  · intro i hi hu ht
    obtain ⟨hs, -, ho⟩ := ha i hi hu
    rw [hp i hi] at ht ⊢
    rw [ho]
    exact h.owner i hi hs ht
  · intro i hi hu ht j hj
    rw [hp i hi] at ht ⊢
    rw [hp j (hj.trans hi)]
    exact h.first i hi (ha i hi hu).1 ht j hj

theorem AlarmTable.setTimer_same (h : AlarmTable thread s) {i : ℕ} {t : AuKernelTimer}
    (hp : t.param = (s.timers i).param) (ha : t.active → (s.timers i).active ∧
      t.handler = (s.timers i).handler ∧ t.owner = (s.timers i).owner) :
    AlarmTable thread (setTimer s i t) := by
  apply h.weaken
  · intro j _
    by_cases hji : j = i
    · rw [hji, setTimer_self, hp]
    · rw [setTimer_ne s hji]
  · intro j _ hj
    by_cases hji : j = i
    · rw [hji, setTimer_self] at hj ⊢
      exact ha hj
    · rw [setTimer_ne s hji] at hj ⊢
      exact ⟨hj, rfl, rfl⟩

/-- The first free slot takes a timer whose parameter no active timer has. -/
theorem AlarmTable.arm (h : AlarmTable thread s) {i : ℕ} (hi : freeTimer s = some i)
    {t : AuKernelTimer} (ha : t.handler = alarmCallback ↔ thread t.param)
    (ho : thread t.param → t.owner = t.param)
    (hne : thread t.param → ∀ j, j < AURORA_MAX_TIMER → (s.timers j).active →
      (s.timers j).param ≠ t.param) :
    AlarmTable thread (setTimer s i t) := by
  obtain ⟨hi, -, hlow⟩ := freeTimer_some.mp hi
  constructor
  · intro j hj
    by_cases hji : j = i
    · rw [hji, setTimer_self]
      exact fun _ => ha
    · rw [setTimer_ne s hji]
      exact h.alarm j hj
  · intro j hj
    by_cases hji : j = i
    · rw [hji, setTimer_self]
      exact fun _ => ho
    · rw [setTimer_ne s hji]
      exact h.owner j hj
  · intro j hj
    by_cases hji : j = i
    · intro _ ht k hk
      rw [hji, setTimer_self] at ht ⊢
      rw [hji] at hk
      rw [setTimer_ne s hk.ne]
      exact hne ht k (hk.trans hi) (hlow k hk)
    · rw [setTimer_ne s hji]
      intro hact ht k hk
      by_cases hki : k = i
      · -- a slot above the new timer keeps its own parameter
        rw [hki, setTimer_self]
        intro he
        exact hne (he ▸ ht) j hj hact he.symm
      · rw [setTimer_ne s hki]
        exact h.first j hj hact ht k hk

theorem AlarmTable.tick (h : AlarmTable thread s) (cnt : ℕ) :
    AlarmTable thread (auroraTimerTick freq s cnt).1 := by
  have hspec := (auroraTimerTick_spec freq s cnt).1
  apply h.weaken
  · intro i hi
    rw [hspec i hi, refreshed]
    split_ifs <;> rfl
  · intro i hi
    rw [hspec i hi, refreshed]
    split_ifs with he
    · exact fun _ => ⟨he.1, rfl, rfl⟩
    · exact nofun
    · exact fun hact => ⟨hact, rfl, rfl⟩

theorem AlarmTable.armTimer (h : AlarmTable thread s) {i handler param : ℕ}
    (hi : freeTimer s = some i) (hh : handler ≠ alarmCallback) (hp : ¬thread param)
    (expireUS intervalUS : ℕ) :
    AlarmTable thread (armTimer s i expireUS intervalUS handler param) :=
  h.arm hi ⟨fun hc => absurd hc hh, fun hc => absurd hc hp⟩ (fun hc => absurd hc hp)
    fun hc => absurd hc hp

theorem AlarmTable.armAlarm (h : AlarmTable thread s) {i thr : ℕ} (ht : thread thr)
    (hi : freeTimer s = some i) (hno : ∀ j, ¬Signals s j thr) (expireUS intervalUS : ℕ) :
    AlarmTable thread (armAlarm s i expireUS intervalUS thr) := by
  apply h.arm hi ⟨fun _ => ht, fun _ => rfl⟩ fun _ => rfl
  intro _ j hj hact hpar
  apply hno j
  exact ⟨hj, hact, (h.alarm j hj hact).mpr (hpar ▸ ht), hpar⟩

/-- The thread's own alarm timer takes the new alarm. -/
theorem AlarmTable.rearm (h : AlarmTable thread s) {i thr : ℕ} (ht : thread thr)
    (hi : Signals s i thr) (expireUS intervalUS : ℕ) :
    AlarmTable thread (Timer.armAlarm s i expireUS intervalUS thr) := by
  apply h.setTimer_same hi.param.symm
  intro _
  refine ⟨hi.active, hi.handler.symm, ?_⟩
  rw [h.owner i hi.slot hi.active (hi.param ▸ ht), hi.param]

theorem AlarmTable.disown (h : AlarmTable thread s) (i : ℕ) :
    AlarmTable thread (disownTimer s i) :=
  h.setTimer_same rfl fun hact => absurd hact Bool.false_ne_true

theorem AlarmTable.cancel (h : AlarmTable thread s) (tNum : ℤ) :
    AlarmTable thread (auroraTimerCancel s tNum) := by
  unfold auroraTimerCancel
  split
  · exact h.setTimer_same rfl fun hact => absurd hact Bool.false_ne_true
  · exact h

/-- After the thread's timer is disowned, none signals the thread. -/
theorem AlarmTable.disowned (h : AlarmTable thread s) {i thr : ℕ} (ht : thread thr)
    (hi : Signals s i thr) (j : ℕ) : ¬Signals (disownTimer s i) j thr := by
  intro hj
  by_cases hji : j = i
  · have hact := hj.active
    rw [hji, disownTimer, setTimer_self] at hact
    exact absurd hact Bool.false_ne_true
  · apply hji
    apply h.single ht _ hi
    have he : (disownTimer s i).timers j = s.timers j := setTimer_ne s hji _
    exact ⟨hj.slot, he ▸ hj.active, he ▸ hj.handler, he ▸ hj.param⟩

theorem armed_signals {i : ℕ} (hi : i < AURORA_MAX_TIMER) (s : State)
    (expireUS intervalUS thr : ℕ) : Signals (armAlarm s i expireUS intervalUS thr) i thr := by
  constructor
  · exact hi
  · rw [armAlarm, setTimer_self]
  · rw [armAlarm, setTimer_self]
  · rw [armAlarm, setTimer_self]

theorem signals_congr {i thr : ℕ} (h : u.timers i = s.timers i) :
    Signals u i thr ↔ Signals s i thr := by
  constructor
  · intro hs
    exact ⟨hs.slot, h ▸ hs.active, h ▸ hs.handler, h ▸ hs.param⟩
  · intro hs
    exact ⟨hs.slot, h ▸ hs.active, h ▸ hs.handler, h ▸ hs.param⟩

/-! ## Setting an alarm -/

/-- Taking the alarm away is complete, and the table is as it was otherwise. -/
theorem AlarmTable.disown_set (h : AlarmTable thread s) {thr i : ℕ} (ht : thread thr)
    (hi : Signals s i thr) : AlarmSet s (disownTimer s i) thr none := by
  constructor
  · intro b
    constructor
    · exact nofun
    · intro ⟨j, hj, _⟩
      exact absurd hj (h.disowned ht hi j)
  · intro j _ hj
    apply setTimer_ne
    intro hji
    exact hj (hji ▸ hi)

theorem AlarmSet.refl {thr : ℕ} (hno : ∀ i, ¬Signals s i thr) : AlarmSet s s thr none := by
  constructor
  · intro b
    constructor
    · exact nofun
    · intro ⟨j, hj, _⟩
      exact absurd hj (hno j)
  · exact fun _ _ _ => rfl

/-- The slot that is armed was free or had the thread's alarm, and no other slot has it. -/
theorem AlarmSet.arm {thr i : ℕ}
    (hsame : ∀ j, (s.timers j).active → ¬Signals s j thr → u.timers j = s.timers j)
    (hi : i < AURORA_MAX_TIMER) (hfree : (u.timers i).active = false ∨ Signals u i thr)
    (hno : ∀ j, j ≠ i → ¬Signals u j thr) (expireUS intervalUS : ℕ) :
    AlarmSet s (armAlarm u i expireUS intervalUS thr) thr (some (expireUS, intervalUS)) := by
  constructor
  · intro b
    rw [Option.mem_some_iff]
    constructor
    · intro hb
      refine ⟨i, armed_signals hi u _ _ _, ?_⟩
      rw [armAlarm, setTimer_self, hb]
    · intro ⟨j, hj, hb⟩
      by_cases hji : j = i
      · rw [hb, hji, armAlarm, setTimer_self]
      · apply absurd _ (hno j hji)
        exact (signals_congr (setTimer_ne u hji _)).mp hj
  · intro j hact hj
    have hju : j ≠ i := by
      intro hji
      have hsj := hsame j hact hj
      rcases hfree with hf | hf
      · rw [← hji, hsj, hact] at hf
        exact Bool.false_ne_true hf.symm
      · exact hj ((signals_congr hsj).mp (hji ▸ hf))
    rw [armAlarm, setTimer_ne u hju]
    exact hsame j hact hj

theorem Sets.same {thr : ℕ} {a : Option (ℕ × ℕ)} (hno : ∀ i, ¬Signals s i thr)
    (ha : a = none ∨ freeTimer s = none) : Sets s s thr a := by
  refine ⟨fun h => ?_, fun _ => rfl⟩
  rcases h with rfl | ⟨i, hi, hf⟩
  · exact AlarmSet.refl hno
  · rcases ha with rfl | hfull
    · exact AlarmSet.refl hno
    · rcases hf with hf | hf
      · rw [freeTimer_none.mp hfull i hi] at hf
        exact absurd hf.symm Bool.false_ne_true
      · exact absurd hf (hno i)

theorem Sets.done {thr i : ℕ} {a : Option (ℕ × ℕ)} (h : AlarmSet s u thr a)
    (hi : i < AURORA_MAX_TIMER) (hf : (s.timers i).active = false ∨ Signals s i thr) :
    Sets s u thr a :=
  ⟨fun _ => h, fun hn => absurd ⟨i, hi, hf⟩ hn⟩

theorem AlarmTable.sets_alarm (h : AlarmTable thread s) {thr : ℕ} (ht : thread thr)
    (cnt seconds : ℕ) : Sets s (auTimerCalculateAlarm freq s cnt thr seconds).1 thr
      (secondsAlarm freq cnt seconds) := by
  unfold auTimerCalculateAlarm secondsAlarm
  cases hal : alarmTimer s thr with
  | none =>
    have hno := (h.alarmTimer_none ht).mp hal
    simp only
    split_ifs with h0
    · exact .same hno (.inl rfl)
    · cases hfree : freeTimer s with
      | none => exact .same hno (.inr hfree)
      | some i =>
        obtain ⟨hi, hf, -⟩ := freeTimer_some.mp hfree
        apply Sets.done _ hi (.inl hf)
        exact .arm (fun _ _ _ => rfl) hi (.inl hf) (fun j _ => hno j) _ _
  | some k =>
    have hk := (h.alarmTimer_eq ht k).mp hal
    have hset := h.disown_set ht hk
    simp only
    by_cases h0 : seconds = 0
    · rw [if_pos h0, if_pos h0]
      exact .done hset hk.slot (.inr hk)
    · rw [if_neg h0, if_neg h0]
      cases hfree : freeTimer (disownTimer s k) with
      | none =>
        have hact := freeTimer_none.mp hfree k hk.slot
        rw [disownTimer, setTimer_self] at hact
        exact absurd hact Bool.false_ne_true
      | some i =>
        obtain ⟨hi, hf, -⟩ := freeTimer_some.mp hfree
        apply Sets.done _ hk.slot (.inr hk)
        exact .arm hset.others hi (.inl hf) (fun j _ => h.disowned ht hk j) _ _

/-- The timer that `auTimerSetITimer` sets, for any way to read the new value. -/
theorem AlarmTable.sets_newval (h : AlarmTable thread s) {thr : ℕ} (ht : thread thr)
    (now : ℕ) (value interval : Itimerval → ℕ) (newval : Option Itimerval) :
    Sets s (if (newval.map value).getD 0 = 0 then
        match alarmTimer s thr with
        | none => (s, (0 : ℤ))
        | some i => (disownTimer s i, 0)
      else match (alarmTimer s thr).or (freeTimer s) with
        | none => (s, -1)
        | some i => (Timer.armAlarm s i ((now + (newval.map value).getD 0) % 2 ^ 64)
          ((newval.map interval).getD 0) thr, 0)).1 thr
      (newval.bind fun v =>
        if value v = 0 then none else some ((now + value v) % 2 ^ 64, interval v)) := by
  have hdisown : Sets s (match alarmTimer s thr with
      | none => (s, (0 : ℤ))
      | some i => (disownTimer s i, 0)).1 thr none := by
    cases hal : alarmTimer s thr with
    | none => exact .same ((h.alarmTimer_none ht).mp hal) (.inl rfl)
    | some i =>
      have hi := (h.alarmTimer_eq ht i).mp hal
      exact .done (h.disown_set ht hi) hi.slot (.inr hi)
  cases newval with
  | none => exact hdisown
  | some v =>
    simp only [Option.map_some, Option.getD_some, Option.bind_some]
    split_ifs with h0
    · exact hdisown
    · cases hal : alarmTimer s thr with
      | some i =>
        have hi := (h.alarmTimer_eq ht i).mp hal
        apply Sets.done _ hi.slot (.inr hi)
        apply AlarmSet.arm (fun _ _ _ => rfl) hi.slot (.inr hi)
        exact fun j hji hj => hji (h.single ht hj hi)
      | none =>
        have hno := (h.alarmTimer_none ht).mp hal
        rw [Option.none_or]
        cases hfree : freeTimer s with
        | none => exact .same hno (.inr hfree)
        | some i =>
          obtain ⟨hi, hf, -⟩ := freeTimer_some.mp hfree
          apply Sets.done _ hi (.inl hf)
          exact .arm (fun _ _ _ => rfl) hi (.inl hf) (fun j _ => hno j) _ _

theorem AlarmTable.sets_setITimer (h : AlarmTable thread s) {thr : ℕ} (ht : thread thr)
    (cnt : ℕ) (newval : Option Itimerval) :
    Sets s (auTimerSetITimer freq s cnt thr ITIMER_REAL newval).1 thr
      (itimerAlarm freq cnt newval) := by
  unfold auTimerSetITimer itimerAlarm
  rw [if_neg (not_not.mpr rfl)]
  exact h.sets_newval ht (getCurrentUs freq cnt) (fun v => timevalToUs v.it_value % 2 ^ 64)
    (fun v => timevalToUs v.it_interval % 2 ^ 64) newval

/-! ## Runs -/

theorem AlarmTable.alarm_step (h : AlarmTable thread s) {thr : ℕ} (ht : thread thr)
    (cnt seconds : ℕ) : AlarmTable thread (auTimerCalculateAlarm freq s cnt thr seconds).1 := by
  unfold auTimerCalculateAlarm
  cases hal : alarmTimer s thr with
  | none =>
    have hno := (h.alarmTimer_none ht).mp hal
    simp only
    split
    · exact h
    · split
      · exact h
      case h_2 hfree => exact h.armAlarm ht hfree hno _ _
  | some k =>
    have hk := (h.alarmTimer_eq ht k).mp hal
    simp only
    split
    · exact h.disown k
    · split
      · exact h.disown k
      case h_2 hfree => exact (h.disown k).armAlarm ht hfree (h.disowned ht hk) _ _

theorem AlarmTable.setITimer_step (h : AlarmTable thread s) {thr : ℕ} (ht : thread thr)
    (cnt : ℕ) (which : ℤ) (newval : Option Itimerval) :
    AlarmTable thread (auTimerSetITimer freq s cnt thr which newval).1 := by
  unfold auTimerSetITimer
  simp only
  split
  · exact h
  · cases hal : alarmTimer s thr with
    | some i =>
      have hi := (h.alarmTimer_eq ht i).mp hal
      simp only
      split
      · exact h.disown i
      · exact h.rearm ht hi _ _
    | none =>
      have hno := (h.alarmTimer_none ht).mp hal
      simp only [Option.none_or]
      split
      · exact h
      · split
        · exact h
        case h_2 hfree => exact h.armAlarm ht hfree hno _ _

theorem AlarmTable.timers (h : AlarmTable thread s) (hu : u.timers = s.timers) :
    AlarmTable thread u :=
  h.weaken (fun i _ => by rw [hu]) fun i _ hact => ⟨hu ▸ hact, by rw [hu], by rw [hu]⟩

theorem handleSleepThread_timers (s : State) (t : ℕ) :
    (handleSleepThread s t).timers = s.timers := by
  unfold handleSleepThread
  simp only
  split_ifs <;> rfl

theorem auHandleSleepThreads_timers (s : State) : (auHandleSleepThreads s).timers = s.timers := by
  unfold auHandleSleepThreads
  generalize s.sleep_list = l
  induction l generalizing s with
  | nil => rfl
  | cons t l ih => rw [List.foldl_cons, ih, handleSleepThread_timers]

theorem AlarmTable.step (h : AlarmTable thread s) {op : TimerOp} (hop : Proper thread op) :
    AlarmTable thread (timerStep freq s op).1 := by
  cases op with
  | tick cnt => exact (h.tick cnt).timers (auHandleSleepThreads_timers _)
  | schedule => exact h.timers (auHandleSleepThreads_timers _)
  | start cnt delay_ms handler param idx =>
    obtain ⟨rfl, hh, hp⟩ := hop
    simp only [timerStep, auroraTimerStart]
    split
    · exact h
    case h_2 hfree => exact h.armTimer hfree hh hp _ _
  | startPeriodic cnt interval_ms handler param =>
    simp only [timerStep, auroraTimerStartPeriodic]
    split
    · exact h
    case h_2 hfree => exact h.armTimer hfree hop.1 hop.2 _ _
  | cancel tNum => exact h.cancel tNum
  | alarm cnt thr seconds => exact h.alarm_step hop cnt seconds
  | setITimer cnt thr which newval => exact h.setITimer_step hop cnt which newval
  | sleep t ms =>
    apply h.timers
    simp only [timerStep, auSleepThread]
    split <;> rfl
  | makeReady t =>
    apply h.timers
    simp only [timerStep, auThreadMakeReady]
    split <;> rfl

theorem AlarmTable.ended (h : AlarmTable thread s) {thr : ℕ} (ht : thread thr) (i : ℕ) :
    ¬Signals (auProcessFreeKeResource s thr) i thr := by
  intro hi
  -- a slot that still signals is the one that was found, and that is cancelled
  have hs : Signals s i thr := by
    unfold auProcessFreeKeResource auroraTimerCancel at hi
    simp only at hi
    split_ifs at hi with hne hr
    · by_cases hij : i = (auGetTimerByThread s thr).toNat
      · have hact := hi.active
        rw [hij, stopTimer, setTimer_self] at hact
        exact absurd hact Bool.false_ne_true
      · exact (signals_congr (setTimer_ne s hij _)).mp hi
    · exact hi
    · exact hi
  have hfound := h.found ht hs
  have hact := hi.active
  have hslot : (0 : ℤ) ≤ i ∧ (i : ℤ) < AURORA_MAX_TIMER :=
    ⟨Int.natCast_nonneg i, Int.ofNat_lt.mpr hs.slot⟩
  rw [auProcessFreeKeResource, hfound, if_pos (by omega), auroraTimerCancel, if_pos hslot,
    Int.toNat_natCast, stopTimer, setTimer_self] at hact
  exact absurd hact Bool.false_ne_true

theorem AlarmTable.oneAlarm (h : AlarmTable thread s) {thr : ℕ} (ht : thread thr) :
    OneAlarm freq s thr where
  single _ _ := h.single ht
  found _ := h.found ht
  alarm := h.sets_alarm ht
  setITimer := h.sets_setITimer ht
  ended := h.ended ht

theorem alarms_single (freq : ℕ) (thread : ℕ → Prop) (threads : List ℕ) (ops : List TimerOp)
    (hops : ∀ op ∈ ops, Proper thread op) (thr : ℕ) (hthr : thread thr) :
    OneAlarm freq (run (fun s op => (timerStep freq s op).1) (bootTimers threads) ops) thr := by
  apply AlarmTable.oneAlarm _ hthr
  apply (respects_mem _ ops).invariant _ (alarmTable_boot threads)
  exact fun s op hs hop => hs.step (hops op hop)

/-- The second alarm of thread 7 takes a slot below its stale one. -/
theorem alarms_single_two : OneAlarm 1 (run (fun s op => (timerStep 1 s op).1) (bootTimers [7, 8])
    [.startPeriodic 0 10 2 0, .alarm 0 7 5, .alarm 0 8 1, .cancel 0, .alarm 1 7 2, .tick 2]) 7 :=
  alarms_single 1 (fun t => t = 7 ∨ t = 8) _ _ (by simp [Proper, alarmCallback]) 7 (.inl rfl)

end Xeneva.Hal.Timer
