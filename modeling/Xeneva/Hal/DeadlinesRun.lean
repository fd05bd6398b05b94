import Xeneva.Hal.Deadlines

/-!
# Runs of the timers

Every call keeps the kernel's times equal to the deadlines.
-/

namespace Xeneva.Hal.Timer

open Xeneva.Base

variable {freq : ℕ} {s : State}

/-! ## Steps -/

variable {c : Clocked} {op : TimerOp}

theorem ClockInv.clock (hi : ClockInv freq c) (h : Fits freq c op) (hc : Counts c op) :
    ∀ cnt ∈ reading op, getCurrentUs freq c.counter ≤ getCurrentUs freq cnt := by
  intro cnt hr
  rw [getCurrentUs_eq hi.count, getCurrentUs_eq (h.1 cnt hr)]
  exact exactUs_mono (hc cnt hr)

/-- The reading of a call is one of the counter, and not before the last tick. -/
theorem ClockInv.counter (hi : ClockInv freq c) (h : Fits freq c op) (hc : Counts c op) :
    c.lastTick ≤ exactUs freq ((reading op).getD c.counter) ∧
      (reading op).getD c.counter * 1000000 < 2 ^ 64 := by
  cases hr : reading op with
  | none => exact ⟨hi.tick, hi.count⟩
  | some cnt => exact ⟨hi.tick.trans (exactUs_mono (hc cnt hr)), h.1 cnt hr⟩

theorem reading_arming {i cnt delay : ℕ} (h : arming s op = some (i, cnt, delay)) :
    reading op = some cnt := by
  cases op with
  | start cnt' delay_ms handler param idx =>
    cases idx with
    | some j =>
      simp only [arming] at h
      split at h
      · exact absurd h (by simp)
      · simp only [Option.some.injEq, Prod.mk.injEq] at h
        rw [reading, h.2.1]
    | none =>
      obtain ⟨j, -, hj⟩ := Option.map_eq_some_iff.mp h
      simp only [Prod.mk.injEq] at hj
      rw [reading, hj.2.1]
  | startPeriodic cnt' interval_ms handler param =>
    obtain ⟨j, -, hj⟩ := Option.map_eq_some_iff.mp h
    simp only [Prod.mk.injEq] at hj
    rw [reading, hj.2.1]
  | alarm cnt' thr seconds =>
    simp only [arming] at h
    split at h
    · exact absurd h (by simp)
    · obtain ⟨j, -, hj⟩ := Option.map_eq_some_iff.mp h
      simp only [Prod.mk.injEq] at hj
      rw [reading, hj.2.1]
  | setITimer cnt' thr which newval =>
    simp only [arming] at h
    split at h
    · exact absurd h (by simp)
    · obtain ⟨v, -, hv⟩ := Option.bind_eq_some_iff.mp h
      split at hv
      · exact absurd hv (by simp)
      · obtain ⟨j, -, hj⟩ := Option.map_eq_some_iff.mp hv
        simp only [Prod.mk.injEq] at hj
        rw [reading, hj.2.1]
  | tick _ => exact absurd h (by simp [arming])
  | schedule => exact absurd h (by simp [arming])
  | cancel _ => exact absurd h (by simp [arming])
  | sleep _ _ => exact absurd h (by simp [arming])
  | makeReady _ => exact absurd h (by simp [arming])

/-- A call that arms at most one timer keeps the times. -/
theorem ClockInv.arms (hi : ClockInv freq c) (h : Fits freq c op) (hc : Counts c op) {u : State}
    (ha : Arms freq c.kern u (arming c.kern op)) : ClockInv freq { c with
      kern := u
      due := fun i => match arming c.kern op with
        | none => c.due i
        | some (j, cnt, delay) => if i = j then exactUs freq cnt + delay else c.due i
      counter := (reading op).getD c.counter } := by
  have hcount := hi.counter h hc
  refine ⟨fun j hj hact => ?_, ha.now.trans hi.now, hcount.1, hcount.2, ?_, ?_⟩
  · have ht := ha.timers j hact
    cases hop : arming c.kern op with
    | none =>
      rw [hop] at ht
      exact ht.2.trans (hi.due j hj ht.1)
    | some a =>
      obtain ⟨i, cnt, delay⟩ := a
      rw [hop] at ht
      change if j = i then _ else _ at ht
      show (u.timers j).expireUS = if j = i then _ else _
      by_cases hji : j = i
      · rw [if_pos hji] at ht ⊢
        have hlt := h.2.1 (i, cnt, delay) hop
        rw [ht, getCurrentUs_eq (h.1 cnt (reading_arming hop)), Nat.mod_eq_of_lt hlt]
      · rw [if_neg hji] at ht ⊢
        exact ht.2.trans (hi.due j hj ht.1)
  · show u.sleep_list.Nodup
    rw [ha.sleep]
    exact hi.nodup
  · show ∀ t ∈ u.sleep_list, Awaits (u.thr t) (c.wake t) c.lastTick
    rw [ha.sleep, ha.thr]
    exact hi.wake

theorem Awaits.later {th : AA64Thread} {wake a b : ℕ} (h : Awaits th wake a) (hab : a ≤ b) :
    Awaits th wake b := by
  unfold Awaits at h ⊢
  split at h
  case isTrue h0 =>
    rw [if_pos h0]
    exact h.trans hab
  case isFalse h0 =>
    rw [if_neg h0]
    exact h

theorem ripe_iff (hi : ClockInv freq c) {t : ℕ} (ht : t ∈ c.kern.sleep_list) {now : ℕ}
    (hnow : c.lastTick ≤ now) : (c.kern.thr t).sleepQuanta = 0 ∨
      (c.kern.thr t).sleep_until_us ≤ now ↔ c.wake t ≤ now := by
  have hw := hi.wake t ht
  unfold Awaits at hw
  by_cases hq : (c.kern.thr t).sleepQuanta = 0
  · rw [if_pos hq] at hw
    constructor
    · intro _
      exact hw.trans hnow
    · intro _
      exact Or.inl hq
  · rw [if_neg hq] at hw
    rw [hw]
    exact or_iff_right hq

theorem walked_schedule (hi : ClockInv freq c) :
    Walked c.kern.sleep_list c.kern (auHandleSleepThreads c.kern) :=
  walk_spec _ hi.nodup _ hi.nodup

/-- What is left of the sleeping threads after the walk has its time ahead. -/
theorem ClockInv.walked (hi : ClockInv freq c) {u : State}
    (hu : Walked c.kern.sleep_list c.kern u) : ClockInv freq { c with kern := u } := by
  refine ⟨?_, hu.now.trans hi.now, hi.tick, hi.count, hu.nodup, fun t ht => ?_⟩
  · show ∀ i, i < AURORA_MAX_TIMER → (u.timers i).active → (u.timers i).expireUS = c.due i
    rw [hu.timers]
    exact hi.due
  · obtain ⟨hs, hr⟩ := (hu.sleep t).mp ht
    show Awaits (u.thr t) (c.wake t) c.lastTick
    rw [hu.thr t hr]
    exact hi.wake t hs

theorem ClockInv.schedule (hi : ClockInv freq c) :
    ClockInv freq (clockedStep freq c .schedule) ∧ OnTime freq c .schedule := by
  have hu := walked_schedule hi
  refine ⟨hi.walked hu, ⟨by simp [reading], nofun, nofun, fun _ t ht hn => ?_⟩⟩
  have hr : ripe c.kern t := by
    by_contra hr
    exact hn ((hu.sleep t).mpr ⟨ht, fun hc => hr hc.2⟩)
  rw [ripe, hi.now] at hr
  exact (ripe_iff hi ht le_rfl).mp hr

/-- The kernel after the loop over the timers in a tick. -/
theorem ClockInv.ticked (hi : ClockInv freq c) {cnt : ℕ} (h : Fits freq c (.tick cnt))
    (hc : Counts c (.tick cnt)) {r : State × List ℕ} (hr : auroraTimerTick freq c.kern cnt = r) :
    ClockInv freq { c with
      kern := r.1
      due := dueStep freq c (.tick cnt)
      lastTick := exactUs freq cnt
      counter := cnt } ∧
    (∀ i, i < AURORA_MAX_TIMER → (c.kern.timers i).active →
      (i ∈ r.2 ↔ c.due i ≤ exactUs freq cnt)) ∧
    r.1.sleep_list = c.kern.sleep_list ∧ r.1.thr = c.kern.thr := by
  have hnow : getCurrentUs freq cnt = exactUs freq cnt := getCurrentUs_eq (h.1 cnt rfl)
  have hle : c.lastTick ≤ exactUs freq cnt := hi.tick.trans (exactUs_mono (hc cnt rfl))
  have hspec := auroraTimerTick_spec freq c.kern cnt
  simp only [hr, hnow] at hspec
  obtain ⟨htimers, hfired, hsys, hthr, hsleep⟩ := hspec
  have hexp : ∀ i, i < AURORA_MAX_TIMER → (expired (exactUs freq cnt) (c.kern.timers i) ↔
      (c.kern.timers i).active ∧ c.due i ≤ exactUs freq cnt) := by
    intro i hlt
    rw [expired]
    exact and_congr_right fun ha => by rw [hi.due i hlt ha]
  refine ⟨⟨fun i hlt ha => ?_, hsys, le_rfl, h.1 cnt rfl, hsleep ▸ hi.nodup, ?_⟩, ?_,
    hsleep, hthr⟩
  · change (r.1.timers i).active at ha
    show (r.1.timers i).expireUS = if (c.kern.timers i).active ∧ c.due i ≤ exactUs freq cnt then
      exactUs freq cnt + (c.kern.timers i).intervalUS else c.due i
    rw [htimers i hlt] at ha ⊢
    by_cases he : expired (exactUs freq cnt) (c.kern.timers i)
    · rw [if_pos he] at ha
      rw [if_pos ((hexp i hlt).mp he), if_pos he]
      unfold refreshed at ha ⊢
      split at ha
      case isTrue hpos =>
        rw [if_pos hpos]
        exact Nat.mod_eq_of_lt (h.2.2 i hlt he.1 (hnow ▸ he.2) hpos)
      case isFalse => exact absurd ha Bool.false_ne_true
    · rw [if_neg he] at ha
      rw [if_neg (fun hd => he ((hexp i hlt).mpr hd)), if_neg he]
      exact hi.due i hlt ha
  · show ∀ t ∈ r.1.sleep_list, Awaits (r.1.thr t) (c.wake t) (exactUs freq cnt)
    rw [hsleep, hthr]
    intro t ht
    exact (hi.wake t ht).later hle
  · intro i hlt ha
    rw [hfired i hlt, hexp i hlt]
    exact and_iff_right ha

theorem ClockInv.tick_step (hi : ClockInv freq c) {cnt : ℕ} (h : Fits freq c (.tick cnt))
    (hc : Counts c (.tick cnt)) :
    ClockInv freq (clockedStep freq c (.tick cnt)) ∧ OnTime freq c (.tick cnt) := by
  generalize hr : auroraTimerTick freq c.kern cnt = r
  obtain ⟨hinv, hfires, hsleep, hthr⟩ := hi.ticked h hc hr
  have hle : c.lastTick ≤ exactUs freq cnt := hi.tick.trans (exactUs_mono (hc cnt rfl))
  have hu := walked_schedule hinv
  have hstep : timerStep freq c.kern (.tick cnt) = (auHandleSleepThreads r.1, r.2) := by
    rw [timerStep, hr]
  have hripe : ∀ t ∈ c.kern.sleep_list, (ripe r.1 t ↔ c.wake t ≤ exactUs freq cnt) := by
    intro t ht
    rw [ripe, hthr, hinv.now]
    exact ripe_iff hi ht hle
  constructor
  · have h := hinv.walked hu
    rw [clockedStep, hstep]
    exact h
  refine ⟨hi.clock h hc, ?_, ?_, ?_⟩
  · intro cnt' he
    cases he
    rw [hstep]
    exact hfires
  · intro cnt' he t ht
    cases he
    rw [hstep, ← hripe t ht]
    have ht' : t ∈ r.1.sleep_list := hsleep ▸ ht
    constructor
    · intro hw
      by_contra hn
      exact hw.2 ((hu.sleep t).mpr ⟨ht', fun hc => hn hc.2⟩)
    · intro hw
      exact ⟨(hu.ready t).mpr (Or.inr ⟨ht', hw⟩), fun hs => ((hu.sleep t).mp hs).2 ⟨ht', hw⟩⟩
  · intro he
    cases he

theorem ClockInv.sleep_step (hi : ClockInv freq c) {thread ms : ℕ}
    (h : Fits freq c (.sleep thread ms)) :
    ClockInv freq (clockedStep freq c (.sleep thread ms)) := by
  show ClockInv freq ⟨auSleepThread c.kern thread ms, c.due, wakeStep c (.sleep thread ms),
    c.lastTick, c.counter⟩
  by_cases hs : thread ∈ c.kern.sleep_list
  · have hkern : auSleepThread c.kern thread ms = c.kern := if_pos hs
    have hwake : wakeStep c (.sleep thread ms) = c.wake := funext fun t =>
      if_neg fun hc => hc.2 hs
    rw [hkern, hwake]
    exact ⟨hi.due, hi.now, hi.tick, hi.count, hi.nodup, hi.wake⟩
  · have hkern : auSleepThread c.kern thread ms = _ := if_neg hs
    rw [hkern]
    refine ⟨hi.due, hi.now, hi.tick, hi.count, ?_, fun t ht => ?_⟩
    · apply hi.nodup.append (List.nodup_singleton _)
      intro t ht hn
      exact hs (List.mem_singleton.mp hn ▸ ht)
    · show Awaits (Function.update c.kern.thr thread _ t) (wakeStep c (.sleep thread ms) t)
        c.lastTick
      by_cases htt : t = thread
      · have hw : wakeStep c (.sleep thread ms) t = c.lastTick + ms * 1000 := if_pos ⟨htt, hs⟩
        rw [hw, htt, Function.update_self]
        unfold Awaits
        simp only [hi.now, Nat.add_mod_mod]
        split
        case isTrue h0 => rw [h0, Nat.zero_mul, Nat.add_zero]
        case isFalse => exact Nat.mod_eq_of_lt h.2.2
      · have hw : wakeStep c (.sleep thread ms) t = c.wake t := if_neg fun hc => htt hc.1
        rw [Function.update_of_ne htt, hw]
        rcases List.mem_append.mp ht with h' | h'
        · exact hi.wake t h'
        · exact absurd (List.mem_singleton.mp h') htt

theorem ClockInv.makeReady_step (hi : ClockInv freq c) (thread : ℕ) :
    ClockInv freq (clockedStep freq c (.makeReady thread)) := by
  show ClockInv freq ⟨auThreadMakeReady c.kern thread, c.due, c.wake, c.lastTick, c.counter⟩
  by_cases hs : thread ∈ c.kern.sleep_list
  · have hkern : auThreadMakeReady c.kern thread = _ := if_neg (not_not.mpr hs)
    rw [hkern]
    refine ⟨hi.due, hi.now, hi.tick, hi.count, hi.nodup.erase _, fun t ht => ?_⟩
    obtain ⟨hne, hmem⟩ := hi.nodup.mem_erase_iff.mp ht
    show Awaits (Function.update c.kern.thr thread _ t) (c.wake t) c.lastTick
    rw [Function.update_of_ne hne]
    exact hi.wake t hmem
  · have hkern : auThreadMakeReady c.kern thread = c.kern := if_pos hs
    rw [hkern]
    exact ⟨hi.due, hi.now, hi.tick, hi.count, hi.nodup, hi.wake⟩

theorem ClockInv.step (hi : ClockInv freq c) (h : Counts c op ∧ Fits freq c op) :
    ClockInv freq (clockedStep freq c op) ∧ OnTime freq c op := by
  obtain ⟨hc, h⟩ := h
  have hclock := hi.clock h hc
  cases op with
  | tick cnt => exact hi.tick_step h hc
  | schedule => exact hi.schedule
  | start cnt delay_ms handler param idx =>
    exact ⟨hi.arms h hc (arms_start c.kern cnt delay_ms handler param idx),
      ⟨hclock, nofun, nofun, nofun⟩⟩
  | startPeriodic cnt interval_ms handler param =>
    exact ⟨hi.arms h hc (arms_startPeriodic c.kern cnt interval_ms handler param),
      ⟨hclock, nofun, nofun, nofun⟩⟩
  | cancel tNum => exact ⟨hi.arms h hc (arms_cancel c.kern tNum), ⟨hclock, nofun, nofun, nofun⟩⟩
  | alarm cnt thr seconds =>
    exact ⟨hi.arms h hc (arms_alarm c.kern cnt thr seconds), ⟨hclock, nofun, nofun, nofun⟩⟩
  | setITimer cnt thr which newval =>
    have hv : ∀ v ∈ newval, timevalToUs v.it_value < 2 ^ 64 := fun v hv => (h.2.2 v hv).1
    exact ⟨hi.arms h hc (arms_setITimer c.kern cnt thr which newval hv),
      ⟨hclock, nofun, nofun, nofun⟩⟩
  | sleep thread ms => exact ⟨hi.sleep_step h, ⟨hclock, nofun, nofun, nofun⟩⟩
  | makeReady thread => exact ⟨hi.makeReady_step thread, ⟨hclock, nofun, nofun, nofun⟩⟩

end Xeneva.Hal.Timer
