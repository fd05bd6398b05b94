import Xeneva.Base.Run

/-!
# The service manager

A service is restarted when it ends: after a back-off that doubles, or after a cool-down that doubles
once it has ended too often within a window. The readings of the clock are in milliseconds; what is
printed and the hand-back commands are left out.
-/

namespace Xeneva.Svcmgr
open Base

def MAX_COOLDOWN_MS : ℕ := 300000
def BACKOFF_BASE_MS : ℕ := 200

structure Service where
  max_restarts : ℕ
  window_ms : ℕ
  cooldown_ms : ℕ
  stable_ms : ℕ
  pid : ℤ := -1
  starts : ℕ := 0
  crashes : ℕ := 0
  window_start : ℕ := 0
  cooldown_cur_ms : ℕ := 0
  adopted : Bool := false

/-- The numbers of a line of the table, as they are written there. -/
structure Fields where
  max_restarts : List Char
  window_s : List Char
  cooldown_s : List Char
  stable_s : List Char

def isDigit (c : Char) : Bool := '0' ≤ c && c ≤ '9'

def digit (c : Char) : ℕ := c.toNat - '0'.toNat

/-- Digits up to the first other character, in 64 bits. -/
def numFrom (v : ℕ) : List Char → ℕ
  | [] => v
  | c :: s => if isDigit c then numFrom ((v * 10 + digit c) % 2 ^ 64) s else v

def num (s : List Char) : ℕ := numFrom 0 s

/-- The number that is written there. -/
def valueFrom (v : ℕ) : List Char → ℕ
  | [] => v
  | c :: s => if isDigit c then valueFrom (v * 10 + digit c) s else v

def value (s : List Char) : ℕ := valueFrom 0 s

def addService (f : Fields) : Service where
  max_restarts := num f.max_restarts % 2 ^ 32
  window_ms := num f.window_s * 1000 % 2 ^ 64
  cooldown_ms := num f.cooldown_s * 1000 % 2 ^ 64
  stable_ms := num f.stable_s * 1000 % 2 ^ 64

/-- One time round the loop: the clock when the wait begins, when the service has ended, and when it
is started again, and the result of that start. A clean exit is a crash here. -/
structure Turn where
  up_since : ℕ
  now : ℕ
  after : ℕ
  pid : ℤ

inductive Outcome
  | cooldown (ms : ℕ)
  | restart (delay : Option ℕ)
  deriving DecidableEq

/-- `BACKOFF_BASE_MS << (crashes - 1)` in 32 bits; a shift by 32 or more is undefined. -/
def backoff (crashes : ℕ) : Option ℕ :=
  let k := (crashes + (2 ^ 32 - 1)) % 2 ^ 32
  if k < 32 then some (BACKOFF_BASE_MS * 2 ^ k % 2 ^ 32) else none

/-- It ran long enough to be forgiven. -/
def Stable (s : Service) (t : Turn) : Prop := t.now - t.up_since ≥ s.stable_ms

instance (s : Service) (t : Turn) : Decidable (Stable s t) := inferInstanceAs (Decidable (_ ≥ _))

def forgive (s : Service) (t : Turn) : Service :=
  if Stable s t then { s with crashes := 0, cooldown_cur_ms := s.cooldown_ms } else s

/-- Old crashes age out of the budget, and the new one is counted. -/
def countCrash (s : Service) (t : Turn) : Service :=
  let s := forgive s t
  let s := if t.now - s.window_start > s.window_ms then
    { s with window_start := t.now, crashes := 0 } else s
  { s with crashes := (s.crashes + 1) % 2 ^ 32 }

def startService (s : Service) (pid : ℤ) : Service :=
  if pid < 0 then { s with pid := -1 } else { s with pid, starts := (s.starts + 1) % 2 ^ 32 }

/-- After a cool-down there is one strike left, and a repeat offender waits longer. -/
def probation (s : Service) (after : ℕ) : Service :=
  { s with
    cooldown_cur_ms := if s.cooldown_cur_ms < MAX_COOLDOWN_MS then s.cooldown_cur_ms * 2 % 2 ^ 64
      else s.cooldown_cur_ms
    crashes := s.max_restarts
    window_start := after }

def serviceTurn (s : Service) (t : Turn) : Service × Outcome :=
  let s := countCrash s t
  if s.crashes > s.max_restarts then
    (startService (probation s t.after) t.pid, .cooldown s.cooldown_cur_ms)
  else (startService s t.pid, .restart (backoff s.crashes))

/-- A service at a time; `recent` are the times at which it ended since it was last forgiven or put
into a cool-down. -/
structure State where
  svc : Service
  clock : ℕ
  recent : List ℕ := []

/-- The service is adopted if it is running, else started for the first time. -/
def begin (f : Fields) (existing pid : ℤ) (now : ℕ) : State where
  svc :=
    let s := if existing > 0 then { addService f with pid := existing, adopted := true }
      else startService (addService f) pid
    { s with window_start := now, cooldown_cur_ms := s.cooldown_ms }
  clock := now

/-- The times at which the service ended that may count against it. -/
def ends (s : State) (t : Turn) : List ℕ :=
  (if Stable s.svc t then [] else s.recent) ++ [t.now]

def step (s : State) (t : Turn) : State where
  svc := (serviceTurn s.svc t).1
  clock := t.after
  recent := match (serviceTurn s.svc t).2 with
    | .cooldown _ => []
    | .restart _ => ends s t

/-- How many of the times are within the window that ends now. -/
def within (window now : ℕ) (l : List ℕ) : ℕ := l.countP fun p => now - p ≤ window

/-- What the table promises of a turn: a cool-down when the service ended too often within a window,
bounded cool-downs, back-offs that double, and a clean slate after a stable run. -/
structure Policy (f : Fields) (s : State) (t : Turn) : Prop where
  limit : value f.max_restarts < within (value f.window_s * 1000) t.now (ends s t) →
    ∃ ms, (serviceTurn s.svc t).2 = .cooldown ms
  cooldown : ∀ ms, (serviceTurn s.svc t).2 = .cooldown ms →
    ms ≤ max (value f.cooldown_s * 1000) MAX_COOLDOWN_MS
  backoff : ∀ delay, (serviceTurn s.svc t).2 = .restart delay →
    delay = some (BACKOFF_BASE_MS * 2 ^ ((serviceTurn s.svc t).1.crashes - 1)) ∧
      ((serviceTurn s.svc t).1.crashes = s.svc.crashes + 1 ∨ (serviceTurn s.svc t).1.crashes = 1)
  stable : t.now - t.up_since ≥ value f.stable_s * 1000 →
    ((serviceTurn s.svc t).2 = .restart (some BACKOFF_BASE_MS) ∧
      (serviceTurn s.svc t).1.crashes = 1 ∧
      (serviceTurn s.svc t).1.cooldown_cur_ms = value f.cooldown_s * 1000) ∨
    (value f.max_restarts = 0 ∧
      (serviceTurn s.svc t).2 = .cooldown (value f.cooldown_s * 1000))

/-- The numbers of the table fit into the fields of a service. -/
structure Fits (f : Fields) : Prop where
  max_restarts : value f.max_restarts < 2 ^ 32
  window : value f.window_s * 1000 < 2 ^ 64
  cooldown : value f.cooldown_s * 1000 < 2 ^ 64
  stable : value f.stable_s * 1000 < 2 ^ 64

/-- The clock runs on. No crash within the window is dropped when the window is over; a cool-down is
not doubled past the limit; and no back-off is shifted out of 32 bits. -/
structure Ok (s : State) (t : Turn) : Prop where
  clock : s.clock ≤ t.up_since ∧ t.up_since ≤ t.now ∧ t.now ≤ t.after
  window : ¬Stable s.svc t → t.now - s.svc.window_start > s.svc.window_ms →
    ∀ p ∈ s.recent, t.now - p > s.svc.window_ms
  cooldown : (countCrash s.svc t).crashes > s.svc.max_restarts →
    2 * (countCrash s.svc t).cooldown_cur_ms ≤ MAX_COOLDOWN_MS ∨
      MAX_COOLDOWN_MS ≤ (countCrash s.svc t).cooldown_cur_ms
  backoff : (countCrash s.svc t).crashes ≤ s.svc.max_restarts → (countCrash s.svc t).crashes ≤ 25

instance (f : Fields) : Decidable (Fits f) :=
  decidable_of_iff (value f.max_restarts < 2 ^ 32 ∧ value f.window_s * 1000 < 2 ^ 64 ∧
    value f.cooldown_s * 1000 < 2 ^ 64 ∧ value f.stable_s * 1000 < 2 ^ 64)
    ⟨fun h => ⟨h.1, h.2.1, h.2.2.1, h.2.2.2⟩, fun h => ⟨h.1, h.2, h.3, h.4⟩⟩

instance (s : State) (t : Turn) : Decidable (Ok s t) :=
  decidable_of_iff ((s.clock ≤ t.up_since ∧ t.up_since ≤ t.now ∧ t.now ≤ t.after) ∧
    (¬Stable s.svc t → t.now - s.svc.window_start > s.svc.window_ms →
      ∀ p ∈ s.recent, t.now - p > s.svc.window_ms) ∧
    ((countCrash s.svc t).crashes > s.svc.max_restarts →
      2 * (countCrash s.svc t).cooldown_cur_ms ≤ MAX_COOLDOWN_MS ∨
        MAX_COOLDOWN_MS ≤ (countCrash s.svc t).cooldown_cur_ms) ∧
    ((countCrash s.svc t).crashes ≤ s.svc.max_restarts → (countCrash s.svc t).crashes ≤ 25))
    ⟨fun h => ⟨h.1, h.2.1, h.2.2.1, h.2.2.2⟩, fun h => ⟨h.1, h.2, h.3, h.4⟩⟩

variable {f : Fields} {s : State} {t : Turn}

theorem le_valueFrom (v : ℕ) (l : List Char) : v ≤ valueFrom v l := by
  induction l generalizing v with
  | nil => exact Nat.le_refl v
  | cons c l ih =>
    unfold valueFrom
    split_ifs
    · exact Nat.le_trans (by omega) (ih _)
    · exact Nat.le_refl v

theorem numFrom_eq (v : ℕ) (l : List Char) (h : valueFrom v l < 2 ^ 64) :
    numFrom v l = valueFrom v l := by
  induction l generalizing v with
  | nil => rfl
  | cons c l ih =>
    unfold numFrom valueFrom
    unfold valueFrom at h
    split_ifs at h ⊢
    · have hle := le_valueFrom (v * 10 + digit c) l
      rw [Nat.mod_eq_of_lt (by omega)]
      exact ih _ h
    · rfl

theorem num_eq (l : List Char) (h : value l < 2 ^ 64) : num l = value l := numFrom_eq 0 l h

/-- The back-off does not wrap for the first crashes. -/
theorem backoff_eq {crashes : ℕ} (h₁ : 0 < crashes) (h₂ : crashes ≤ 25) :
    backoff crashes = some (BACKOFF_BASE_MS * 2 ^ (crashes - 1)) := by
  have hk : (crashes + (2 ^ 32 - 1)) % 2 ^ 32 = crashes - 1 := by omega
  have hpow : 2 ^ (crashes - 1) ≤ 2 ^ 24 := Nat.pow_le_pow_right (by decide) (by omega)
  unfold backoff
  dsimp only
  rw [hk, if_pos (by omega), Nat.mod_eq_of_lt]
  unfold BACKOFF_BASE_MS
  omega

theorem countCrash_table (s : Service) (t : Turn) :
    (countCrash s t).max_restarts = s.max_restarts ∧ (countCrash s t).window_ms = s.window_ms ∧
      (countCrash s t).cooldown_ms = s.cooldown_ms ∧ (countCrash s t).stable_ms = s.stable_ms := by
  unfold countCrash forgive
  dsimp only
  split_ifs <;> exact ⟨rfl, rfl, rfl, rfl⟩

theorem countCrash_crashes {s : Service} (h : s.crashes < 2 ^ 32 - 1) (t : Turn) :
    (countCrash s t).crashes = s.crashes + 1 ∨ (countCrash s t).crashes = 1 := by
  unfold countCrash forgive
  dsimp only
  split_ifs
  · exact .inr rfl
  · exact .inr rfl
  · exact .inr rfl
  · exact .inl (Nat.mod_eq_of_lt (by omega))

theorem countCrash_stable {s : Service} {t : Turn} (h : Stable s t) :
    (countCrash s t).crashes = 1 ∧ (countCrash s t).cooldown_cur_ms = s.cooldown_ms := by
  unfold countCrash forgive
  rw [if_pos h]
  dsimp only
  split_ifs <;> exact ⟨rfl, rfl⟩

theorem countCrash_cooldown (s : Service) (t : Turn) :
    (countCrash s t).cooldown_cur_ms = s.cooldown_cur_ms ∨
      (countCrash s t).cooldown_cur_ms = s.cooldown_ms := by
  unfold countCrash forgive
  dsimp only
  split_ifs
  · exact .inr rfl
  · exact .inr rfl
  · exact .inl rfl
  · exact .inl rfl

theorem startService_same (s : Service) (pid : ℤ) :
    (startService s pid).crashes = s.crashes ∧ (startService s pid).max_restarts = s.max_restarts ∧
      (startService s pid).window_ms = s.window_ms ∧
      (startService s pid).cooldown_ms = s.cooldown_ms ∧
      (startService s pid).stable_ms = s.stable_ms ∧
      (startService s pid).cooldown_cur_ms = s.cooldown_cur_ms := by
  unfold startService
  split_ifs <;> exact ⟨rfl, rfl, rfl, rfl, rfl, rfl⟩

/-! ## The invariant -/

/-- The service has what the table says; what counts against it within any window to come is counted,
and the next cool-down is within its bound. -/
structure Inv (f : Fields) (s : State) : Prop where
  max_restarts : s.svc.max_restarts = value f.max_restarts
  window : s.svc.window_ms = value f.window_s * 1000
  cooldown_ms : s.svc.cooldown_ms = value f.cooldown_s * 1000
  stable : s.svc.stable_ms = value f.stable_s * 1000
  crashes : s.svc.crashes < 2 ^ 32 - 1
  counted : ∀ now, s.clock ≤ now → within s.svc.window_ms now s.recent ≤ s.svc.crashes
  cooldown : s.svc.cooldown_cur_ms ≤ max (value f.cooldown_s * 1000) MAX_COOLDOWN_MS

theorem inv_begin (hf : Fits f) (existing pid : ℤ) (now : ℕ) : Inv f (begin f existing pid now) := by
  have hm : num f.max_restarts % 2 ^ 32 = value f.max_restarts := by
    have hlt := hf.max_restarts
    rw [num_eq _ (by omega), Nat.mod_eq_of_lt hlt]
  have hms : ∀ l : List Char, value l * 1000 < 2 ^ 64 → num l * 1000 % 2 ^ 64 = value l * 1000 := by
    intro l hl
    rw [num_eq _ (by omega), Nat.mod_eq_of_lt hl]
  have hw := hms _ hf.window
  have hc := hms _ hf.cooldown
  have hs := hms _ hf.stable
  unfold begin startService
  split_ifs
  all_goals
    refine ⟨hm, hw, hc, hs, Nat.succ_pos _, fun _ _ => Nat.le_refl 0, ?_⟩
    dsimp only [addService]
    rw [hc]
    exact Nat.le_max_left _ _

/-- What may count against the service is counted, with the crash. -/
theorem Inv.counts (hi : Inv f s) (ho : Ok s t) {now : ℕ} (hnow : t.now ≤ now) :
    within s.svc.window_ms now (ends s t) ≤ (countCrash s.svc t).crashes := by
  have hone : within s.svc.window_ms now [t.now] ≤ 1 := List.countP_le_length
  have hcrashes := hi.crashes
  obtain ⟨hclock, hup, -⟩ := ho.clock
  by_cases hst : Stable s.svc t
  · unfold ends
    rw [if_pos hst, (countCrash_stable hst).1]
    exact hone
  have hends : within s.svc.window_ms now (ends s t) =
      within s.svc.window_ms now s.recent + within s.svc.window_ms now [t.now] := by
    unfold ends
    rw [if_neg hst]
    exact List.countP_append
  rw [hends]
  by_cases hw : t.now - s.svc.window_start > s.svc.window_ms
  · -- what is dropped is out of the window, and stays out
    have hout : within s.svc.window_ms now s.recent = 0 := by
      apply List.countP_eq_zero.mpr
      intro p hp
      have hp := ho.window hst hw p hp
      simp only [decide_eq_true_eq]
      omega
    have hnew : (countCrash s.svc t).crashes = 1 := by
      unfold countCrash forgive
      dsimp only
      rw [if_neg hst, if_pos hw]
      rfl
    omega
  · have hold := hi.counted now (by omega)
    have hnew : (countCrash s.svc t).crashes = s.svc.crashes + 1 := by
      unfold countCrash forgive
      dsimp only
      rw [if_neg hst, if_neg hw]
      exact Nat.mod_eq_of_lt (by omega)
    omega

theorem Inv.bounded (hi : Inv f s) (t : Turn) :
    (countCrash s.svc t).cooldown_cur_ms ≤ max (value f.cooldown_s * 1000) MAX_COOLDOWN_MS := by
  rcases countCrash_cooldown s.svc t with he | he
  · rw [he]
    exact hi.cooldown
  · rw [he, hi.cooldown_ms]
    exact Nat.le_max_left _ _

theorem Inv.policy (hi : Inv f s) (ho : Ok s t) : Policy f s t := by
  have hcounts := hi.counts ho (Nat.le_refl t.now)
  have hcrash := countCrash_crashes hi.crashes t
  have htable := (countCrash_table s.svc t).1
  have hbound := hi.bounded t
  have hstable := countCrash_stable (s := s.svc) (t := t)
  have hsame := startService_same (countCrash s.svc t) t.pid
  have hbackoff := ho.backoff
  rw [hi.window] at hcounts
  rw [hi.cooldown_ms] at hstable
  constructor
  all_goals
    unfold serviceTurn
    dsimp only
  · intro hlim
    rw [if_pos]
    · exact ⟨_, rfl⟩
    · rw [htable, hi.max_restarts]
      omega
  · intro ms
    split_ifs
    · intro he
      cases he
      exact hbound
    · intro he
      cases he
  · intro delay
    split_ifs with hgo
    · intro he
      cases he
    · intro he
      have hle := hbackoff (by omega)
      rw [← Outcome.restart.inj he, hsame.1]
      exact ⟨backoff_eq (by omega) hle, hcrash⟩
  · intro hlong
    obtain ⟨hone, hcur⟩ := hstable (by
      unfold Stable
      rw [hi.stable]
      exact hlong)
    rw [htable, hi.max_restarts, hone]
    split_ifs with hgo
    · exact .inr ⟨by omega, by rw [hcur]⟩
    · refine .inl ⟨rfl, ?_, ?_⟩
      · rw [hsame.1, hone]
      · rw [hsame.2.2.2.2.2, hcur]

theorem Inv.step (hi : Inv f s) (ho : Ok s t) : Inv f (Svcmgr.step s t) := by
  obtain ⟨h1, h2, h3, h4⟩ := countCrash_table s.svc t
  have hcrash := countCrash_crashes hi.crashes t
  have hlt := hi.crashes
  have hbound := hi.bounded t
  have hclock := ho.clock.2.2
  unfold Svcmgr.step serviceTurn
  dsimp only
  split_ifs with hgo
  · obtain ⟨hc, hm, hw, hcool, hst, hcur⟩ :=
      startService_same (probation (countCrash s.svc t) t.after) t.pid
    constructor
    · exact hm.trans (h1.trans hi.max_restarts)
    · exact hw.trans (h2.trans hi.window)
    · exact hcool.trans (h3.trans hi.cooldown_ms)
    · exact hst.trans (h4.trans hi.stable)
    · have hmax : (probation (countCrash s.svc t) t.after).crashes =
          (countCrash s.svc t).max_restarts := rfl
      dsimp only
      omega
    · intro now _
      exact Nat.zero_le _
    · dsimp only
      rw [hcur]
      unfold probation
      have hlim := ho.cooldown (by omega)
      dsimp only
      split_ifs with hsmall
      · have hdouble : (countCrash s.svc t).cooldown_cur_ms * 2 ≤ MAX_COOLDOWN_MS := by omega
        have hmod := Nat.mod_le ((countCrash s.svc t).cooldown_cur_ms * 2) (2 ^ 64)
        exact Nat.le_trans hmod (Nat.le_trans hdouble (Nat.le_max_right _ _))
      · exact hbound
  · obtain ⟨hc, hm, hw, hcool, hst, hcur⟩ := startService_same (countCrash s.svc t) t.pid
    have hfew := ho.backoff (by omega)
    constructor
    · exact hm.trans (h1.trans hi.max_restarts)
    · exact hw.trans (h2.trans hi.window)
    · exact hcool.trans (h3.trans hi.cooldown_ms)
    · exact hst.trans (h4.trans hi.stable)
    · dsimp only
      omega
    · intro now hnow
      dsimp only at hnow ⊢
      rw [hw, hc, h2]
      exact hi.counts ho (Nat.le_trans hclock hnow)
    · dsimp only
      rw [hcur]
      exact hbound

/-- In every run of a service whose numbers fit, and whose turns meet the condition, every turn
follows the policy. -/
theorem exec_policy (f : Fields) (hf : Fits f) (existing pid : ℤ) (now : ℕ) (ts : List Turn)
    (h : Respects Ok step (begin f existing pid now) ts) :
    Respects (Policy f) step (begin f existing pid now) ts :=
  Respects.imp (fun _ _ hi ho => ⟨hi.step ho, hi.policy ho⟩) (inv_begin hf existing pid now) h

/-- The numbers of the entry that is used without a table. -/
def builtin : Fields where
  max_restarts := ['3']
  window_s := ['6', '0']
  cooldown_s := ['3', '0']
  stable_s := ['2', '0']

/-- Three crashes, a stable run, and a burst that ends in a cool-down. -/
def crashes : List Turn := [⟨0, 10, 210, 5⟩, ⟨210, 220, 620, 6⟩, ⟨620, 630, 1430, 7⟩,
  ⟨1430, 61440, 61640, 8⟩, ⟨61640, 61650, 62050, 9⟩, ⟨62050, 62060, 62860, 10⟩,
  ⟨62860, 62870, 64470, 11⟩]

theorem exec_policy_crashes : Respects (Policy builtin) step (begin builtin 0 4 0) crashes := by
  apply exec_policy
  · decide
  · decide

/-- A service that ends as soon as it is started: from the fourth crash on every crash leads to a
cool-down, the fifth of them of eight minutes. -/
def burst : List Turn := [⟨0, 10, 210, 5⟩, ⟨210, 220, 620, 6⟩, ⟨620, 630, 1430, 7⟩,
  ⟨1430, 1440, 31440, 8⟩, ⟨31440, 31450, 91450, 9⟩, ⟨91450, 91460, 211460, 10⟩,
  ⟨211460, 211470, 451470, 11⟩, ⟨451470, 451480, 931480, 12⟩]

theorem not_exec_policy : ¬Respects (Policy builtin) step (begin builtin 0 4 0) burst := by
  intro h
  obtain ⟨-, -, -, -, -, -, -, hlast, -⟩ := h
  have hlong := hlast.cooldown 480000 (by decide)
  revert hlong
  decide

end Xeneva.Svcmgr
