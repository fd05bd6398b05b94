import Xeneva.Hal.Wake

/-!
# Admission of EDF threads

`edf_util_q16` is the utilisation that was admitted, 0x10000 being all of the processor. The
scheduler's own state is `kern`; `edf_period_us` and `edf_wcet_us` are the recorded jobs.
-/

namespace Xeneva.Sched.Edf
open Base

structure EdfState where
  kern : State
  edf_period_us : ℕ → UInt64 := fun _ => 0
  edf_wcet_us : ℕ → UInt64 := fun _ => 0
  edf_util_q16 : UInt64 := 0

variable {s : EdfState} {st st' : State} {t x : ℕ}

def edfJobUtilQ16 (period_us wcet_us : UInt64) : UInt64 := (wcet_us <<< 16) / period_us

/-- The utilisation of the recorded job of a thread. -/
def EdfState.util (s : EdfState) (t : ℕ) : UInt64 :=
  edfJobUtilQ16 (s.edf_period_us t) (s.edf_wcet_us t)

/-- `now` is the time the counter shows. -/
def auEDFSetParams (s : EdfState) (t : ℕ) (period_us wcet_us now : UInt64) : EdfState × Bool :=
  if t = 0 ∨ t = s.kern.idle_thr then (s, false)
  else if period_us = 0 ∨ wcet_us = 0 ∨ wcet_us > period_us then (s, false)
  else
    let add := edfJobUtilQ16 period_us wcet_us
    let old := if (s.kern.thr t).edf_enabled then s.util t else 0
    if s.edf_util_q16 - old + add > 0x10000 then (s, false)
    else
      ({ kern := s.kern.setThr t { s.kern.thr t with
          edf_release_us := now
          edf_deadline_us := now + period_us
          edf_waiting := false
          edf_enabled := true }
         edf_period_us := Function.update s.edf_period_us t period_us
         edf_wcet_us := Function.update s.edf_wcet_us t wcet_us
         edf_util_q16 := s.edf_util_q16 - old + add }, true)

def auEDFRemove (s : EdfState) (t : ℕ) : EdfState :=
  if t = 0 ∨ ¬ (s.kern.thr t).edf_enabled then s
  else { s with
    kern := Sched.auEDFRemove s.kern t
    edf_util_q16 := s.edf_util_q16 - s.util t }

/-- The end of a job: the thread waits for its next release. -/
def auEDFWaitPeriod (s : EdfState) (t : ℕ) (now : UInt64) : EdfState :=
  if t = 0 ∨ ¬ (s.kern.thr t).edf_enabled then s
  else
    let period := s.edf_period_us t
    let release := (s.kern.thr t).edf_release_us + period
    let release := if release ≤ now then release + ((now - release) / period + 1) * period
      else release
    { s with kern := auScheduleNext (auBlockThread (s.kern.setThr t { s.kern.thr t with
        edf_release_us := release
        edf_deadline_us := release + period
        edf_waiting := true }) t) }

/-- `AuThreadMoveToTrash` drops the reservation of a thread that is not marked yet. -/
def auThreadMoveToTrash (s : EdfState) (t : ℕ) : EdfState :=
  if t = 0 ∨ (s.kern.thr t).state = .killable then s
  else { auEDFRemove s t with kern := Sched.auThreadMoveToTrash s.kern t }

/-- The thread that `AuExitSubThread` finds. -/
def exitTarget (s : EdfState) (threads : List ℕ) (t id : ℕ) : Option ℕ :=
  threads.find? fun x => x ≠ 0 ∧ (s.kern.thr x).thread_id = id ∧ x = t

def auExitSubThread (found : ℕ → Bool) (s : EdfState) (threads : List ℕ) (t id : ℕ) : EdfState :=
  match exitTarget s threads t id with
  | none => s
  | some x => auThreadMoveToTrash
      { s with kern := auThreadAwakeWaiters found (s.kern.setState x .killable) x } x

/-- `AuProcessClean` frees a thread that `AuProcessCanReap` found killable. -/
def reapThread (s : EdfState) (t : ℕ) : EdfState :=
  if (s.kern.thr t).state = .killable then { s with kern := auCleanThread s.kern t } else s

inductive EdfOp
  | setParams (t : ℕ) (period_us wcet_us now : UInt64)
  | remove (t : ℕ)
  | waitPeriod (t : ℕ) (now : UInt64)
  | moveToTrash (t : ℕ)
  | exitSubThread (found : ℕ → Bool) (threads : List ℕ) (t id : ℕ)
  | reap (t : ℕ)
  | sched (a : Act)

/-- The scheduler functions that neither end, free nor admit a thread. -/
def passive : Act → Bool
  | .moveToTrash _ | .exitSubThread .. | .clean _ | .setEDF .. => false
  | _ => true

/-- `AuEDFSetParams` is called for a thread that was not ended. -/
def edfStep (s : EdfState) : EdfOp → EdfState
  | .setParams t period_us wcet_us now =>
    if t ∈ s.kern.live ∧ (s.kern.thr t).state ≠ .killable then
      (auEDFSetParams s t period_us wcet_us now).1
    else s
  | .remove t => auEDFRemove s t
  | .waitPeriod t now => auEDFWaitPeriod s t now
  | .moveToTrash t => auThreadMoveToTrash s t
  | .exitSubThread found threads t id => auExitSubThread found s threads t id
  | .reap t => reapThread s t
  | .sched a => if passive a then { s with kern := Sched.step s.kern a } else s

def boot (idle : ℕ) : EdfState := { kern := State.init idle }

/-- What a thread takes of the processor: its job, if it is a live EDF thread. -/
def EdfState.share (s : EdfState) (t : ℕ) : ℕ :=
  if (s.kern.thr t).edf_enabled ∧ (s.kern.thr t).state ≠ .killable then (s.util t).toNat else 0

/-- The ledger is the sum over the live EDF threads and admits no more than the processor. -/
structure LedgerRight (s : EdfState) : Prop where
  sum : s.edf_util_q16.toNat = (s.kern.live.map s.share).sum
  le : s.edf_util_q16.toNat ≤ 0x10000

/-- What the scheduler functions leave alone that neither end, free nor admit a thread. -/
structure Passive (st st' : State) : Prop where
  live : st'.live = st.live
  enabled : ∀ a, (st'.thr a).edf_enabled = (st.thr a).edf_enabled
  killable : ∀ a, (st'.thr a).state = .killable → (st.thr a).state = .killable

theorem Passive.of_untouched (h : Untouched st st') : Passive st st' :=
  ⟨h.live, h.enabled, h.killable⟩

/-- Every function but those that create a thread. -/
theorem Passive.step (st : State) {a : Act} (ha : passive a) (hc : ∀ t, a ≠ .create t) :
    Passive st (Sched.step st a) := by
  by_cases hm : a.movesOnly
  · exact of_untouched (.step st hm)
  · cases a with
    | setPoll t on =>
      refine ⟨rfl, fun a => ?_, fun a hk => ?_⟩
      · by_cases hat : a = t <;> simp [Sched.step, hat]
      · by_cases hat : a = t <;> simpa [Sched.step, hat] using hk
    | create t => exact absurd rfl (hc t)
    | moveToTrash t => cases ha
    | exitSubThread found threads t id => cases ha
    | clean t => cases ha
    | setEDF t waiting release deadline => cases ha
    | _ => exact absurd rfl hm

end Xeneva.Sched.Edf

/-!
# The ledger of EDF threads

The ledger is right as long as no thread leaves by `AuExitSubThread` while it has a reservation.
-/

namespace Xeneva.Sched.Edf
open Base

variable {s : EdfState} {k : State} {t x : ℕ}

/-- One summand changes. -/
theorem sum_map_change {l : List ℕ} {f g : ℕ → ℕ} (hnd : l.Nodup) (ht : t ∈ l)
    (h : ∀ a, a ≠ t → g a = f a) : (l.map g).sum + f t = (l.map f).sum + g t := by
  induction l with
  | nil => cases ht
  | cons b l ih =>
    obtain ⟨hb, hnd⟩ := List.nodup_cons.mp hnd
    rw [List.map_cons, List.map_cons, List.sum_cons, List.sum_cons]
    by_cases hbt : b = t
    · subst hbt
      have hrest : l.map g = l.map f :=
        List.map_congr_left fun a ha => h a fun he => hb (he ▸ ha)
      rw [hrest]
      omega
    · have hrest := ih hnd ((List.mem_cons.mp ht).resolve_left (Ne.symm hbt))
      rw [h b hbt]
      omega

theorem edfJobUtilQ16_le {period_us wcet_us : UInt64} (hp : period_us ≠ 0)
    (hle : wcet_us ≤ period_us) : (edfJobUtilQ16 period_us wcet_us).toNat ≤ 0x10000 := by
  have hle' : wcet_us.toNat ≤ period_us.toNat := UInt64.le_iff_toNat_le.mp hle
  have hpos : 0 < period_us.toNat := by
    rw [Nat.pos_iff_ne_zero]
    exact fun h0 => hp (UInt64.toNat_inj.mp h0)
  unfold edfJobUtilQ16
  rw [UInt64.toNat_div, UInt64.toNat_shiftLeft]
  apply Nat.div_le_of_le_mul
  refine Nat.le_trans (Nat.mod_le _ _) ?_
  rw [Nat.shiftLeft_eq]
  exact Nat.mul_le_mul_right _ hle'

/-! ## The invariant -/

structure EdfInv (s : EdfState) : Prop where
  ledger : LedgerRight s
  nodup : s.kern.live.Nodup
  live : ∀ a, (s.kern.thr a).edf_enabled = true → a ∈ s.kern.live
  alive : ∀ a, (s.kern.thr a).edf_enabled = true → (s.kern.thr a).state ≠ .killable

theorem EdfInv.share_eq (h : EdfInv s) (a : ℕ) :
    s.share a = if (s.kern.thr a).edf_enabled then (s.util a).toNat else 0 := by
  unfold EdfState.share
  by_cases he : (s.kern.thr a).edf_enabled = true
  · rw [if_pos ⟨he, h.alive a he⟩, if_pos he]
  · rw [if_neg fun hc => he hc.1, if_neg he]

/-- A change of the kernel state after which the same threads have a reservation. -/
theorem EdfInv.congr (h : EdfInv s) (hnd : k.live.Nodup)
    (henabled : ∀ a, (k.thr a).edf_enabled = (s.kern.thr a).edf_enabled)
    (hlive : ∀ a, (k.thr a).edf_enabled = true → a ∈ k.live)
    (hstate : ∀ a, (k.thr a).edf_enabled = true → (k.thr a).state ≠ .killable)
    (hsum : (k.live.map s.share).sum = (s.kern.live.map s.share).sum) :
    EdfInv { s with kern := k } := by
  have hshare : EdfState.share { s with kern := k } = s.share := by
    funext a
    rw [h.share_eq, ← henabled]
    unfold EdfState.share
    by_cases he : (k.thr a).edf_enabled = true
    · rw [if_pos ⟨he, hstate a he⟩, if_pos he]
      rfl
    · rw [if_neg fun hc => he hc.1, if_neg he]
  refine ⟨⟨?_, h.ledger.le⟩, hnd, hlive, hstate⟩
  dsimp only
  rw [hshare, hsum]
  exact h.ledger.sum

theorem EdfInv.passive (h : EdfInv s) (hk : Passive s.kern k) : EdfInv { s with kern := k } := by
  have hen := hk.enabled
  apply h.congr
  · rw [hk.live]
    exact h.nodup
  · exact hen
  · intro a ha
    rw [hk.live]
    exact h.live a (hen a ▸ ha)
  · intro a ha hkill
    exact h.alive a (hen a ▸ ha) (hk.killable a hkill)
  · rw [hk.live]

theorem EdfInv.createKthread (h : EdfInv s) (hnew : t ∉ s.kern.live) :
    EdfInv { s with kern := auCreateKthread s.kern t } := by
  have hno : (s.kern.thr t).edf_enabled = false := by
    rw [← Bool.not_eq_true]
    exact fun he => hnew (h.live t he)
  have hdata := SameData.schedLink .ready { s.kern.setThr t { thread_id := s.kern.thread_id } with
    live := t :: s.kern.live, thread_id := s.kern.thread_id + 1 } t
  have hpas := Passive.of_untouched (.of_sameData hdata)
  have hkern : auCreateKthread s.kern t = schedLink .ready
      { s.kern.setThr t { thread_id := s.kern.thread_id } with
        live := t :: s.kern.live, thread_id := s.kern.thread_id + 1 } t := rfl
  rw [hkern]
  have hen : ∀ a, ((schedLink .ready { s.kern.setThr t { thread_id := s.kern.thread_id } with
      live := t :: s.kern.live, thread_id := s.kern.thread_id + 1 } t).thr a).edf_enabled =
      (s.kern.thr a).edf_enabled := by
    intro a
    rw [hpas.enabled]
    dsimp only
    by_cases hat : a = t
    · rw [setThr_thr, if_pos hat, hat, hno]
    · rw [setThr_thr, if_neg hat]
  apply h.congr
  · rw [hpas.live]
    exact List.nodup_cons.mpr ⟨hnew, h.nodup⟩
  · exact hen
  · intro a ha
    rw [hpas.live]
    exact List.mem_cons_of_mem t (h.live a (hen a ▸ ha))
  · intro a ha hkill
    have hold := hpas.killable a hkill
    dsimp only at hold
    have hne : a ≠ t := fun he => absurd (h.live a (hen a ▸ ha)) (he ▸ hnew)
    rw [setThr_thr, if_neg hne] at hold
    exact h.alive a (hen a ▸ ha) hold
  · rw [hpas.live, List.map_cons, List.sum_cons, h.share_eq t, hno]
    simp

theorem EdfInv.create (h : EdfInv s) (t : ℕ) :
    EdfInv { s with kern := Sched.step s.kern (.create t) } := by
  simp only [Sched.step]
  split_ifs with hc
  · exact h
  · exact h.createKthread (not_or.mp hc).2

/-- A thread without a reservation is marked as ended. -/
theorem EdfInv.mark (h : EdfInv s) (hx : (s.kern.thr x).edf_enabled = false) :
    EdfInv { s with kern := s.kern.setState x .killable } := by
  have hen : ∀ a, ((s.kern.setState x .killable).thr a).edf_enabled =
      (s.kern.thr a).edf_enabled := by
    intro a
    unfold State.setState
    by_cases hax : a = x
    · rw [setThr_thr, if_pos hax, hax]
    · rw [setThr_thr, if_neg hax]
  apply h.congr (k := s.kern.setState x .killable) h.nodup hen
  · intro a ha
    exact h.live a (hen a ▸ ha)
  · intro a ha
    have hne : a ≠ x := by
      rintro rfl
      rw [hen, hx] at ha
      exact Bool.false_ne_true ha
    unfold State.setState
    rw [setThr_thr, if_neg hne]
    exact h.alive a (hen a ▸ ha)
  · rfl

theorem EdfInv.reap (h : EdfInv s) (t : ℕ) : EdfInv (reapThread s t) := by
  unfold reapThread
  split_ifs with hk
  · have hno : (s.kern.thr t).edf_enabled = false := by
      rw [← Bool.not_eq_true]
      exact fun he => h.alive t he hk
    have hpas := Passive.of_untouched (.of_sameData (.schedUnlink .trash s.kern t))
    have hlive : (auCleanThread s.kern t).live = s.kern.live.erase t := by
      unfold auCleanThread
      dsimp only
      rw [hpas.live]
    have hen : ∀ a, ((auCleanThread s.kern t).thr a).edf_enabled =
        (s.kern.thr a).edf_enabled := hpas.enabled
    apply h.congr
    · rw [hlive]
      exact h.nodup.erase t
    · exact hen
    · intro a ha
      rw [hen] at ha
      have hne : a ≠ t := by
        rintro rfl
        rw [hno] at ha
        exact Bool.false_ne_true ha
      rw [hlive]
      exact (List.mem_erase_of_ne hne).mpr (h.live a ha)
    · intro a ha hkill
      exact h.alive a (hen a ▸ ha) (hpas.killable a hkill)
    · rw [hlive]
      by_cases hm : t ∈ s.kern.live
      · have herase := List.sum_map_erase s.share hm
        rw [h.share_eq t, hno] at herase
        simpa using herase
      · rw [List.erase_of_not_mem hm]
  · exact h

/-! ## Reservations -/

/-- The reservation of one thread changes, and the ledger by as much. -/
theorem EdfInv.change (h : EdfInv s) {s' : EdfState} (ht : t ∈ s.kern.live)
    (hlive : s'.kern.live = s.kern.live)
    (hother : ∀ a, a ≠ t → (s'.kern.thr a).edf_enabled = (s.kern.thr a).edf_enabled ∧
      ((s'.kern.thr a).state = .killable → (s.kern.thr a).state = .killable) ∧ s'.util a = s.util a)
    (halive : (s'.kern.thr t).edf_enabled = true → (s'.kern.thr t).state ≠ .killable)
    (hutil : s'.edf_util_q16.toNat + s.share t = s.edf_util_q16.toNat + s'.share t)
    (hle : s'.edf_util_q16.toNat ≤ 0x10000) : EdfInv s' := by
  have halive' : ∀ a, (s'.kern.thr a).edf_enabled = true → (s'.kern.thr a).state ≠ .killable := by
    intro a ha
    by_cases hat : a = t
    · subst hat
      exact halive ha
    · obtain ⟨he, hk, -⟩ := hother a hat
      exact fun hkill => h.alive a (he ▸ ha) (hk hkill)
  have hshare : ∀ a, a ≠ t → s'.share a = s.share a := by
    intro a hat
    obtain ⟨he, -, hu⟩ := hother a hat
    rw [h.share_eq]
    unfold EdfState.share
    by_cases hen : (s'.kern.thr a).edf_enabled = true
    · rw [if_pos ⟨hen, halive' a hen⟩, ← he, if_pos hen, hu]
    · rw [if_neg fun hc => hen hc.1, ← he, if_neg hen]
  refine ⟨⟨?_, hle⟩, hlive ▸ h.nodup, fun a ha => ?_, halive'⟩
  · have hsum := sum_map_change h.nodup ht hshare
    have hold := h.ledger.sum
    rw [hlive]
    omega
  · rw [hlive]
    by_cases hat : a = t
    · exact hat ▸ ht
    · exact h.live a ((hother a hat).1 ▸ ha)

/-- The reservation of a thread is part of the ledger. -/
theorem EdfInv.share_le (h : EdfInv s) (t : ℕ) : s.share t ≤ s.edf_util_q16.toNat := by
  by_cases ht : t ∈ s.kern.live
  · have herase := List.sum_map_erase s.share ht
    have hsum := h.ledger.sum
    omega
  · have hno : (s.kern.thr t).edf_enabled = false := by
      rw [← Bool.not_eq_true]
      exact fun he => ht (h.live t he)
    rw [h.share_eq, hno]
    exact Nat.zero_le _

theorem toNat_sub_of_le {a b : UInt64} (h : b.toNat ≤ a.toNat) :
    (a - b).toNat = a.toNat - b.toNat :=
  UInt64.toNat_sub_of_le a b (UInt64.le_iff_toNat_le.mpr h)

theorem EdfInv.setParams (h : EdfInv s) (ht : t ∈ s.kern.live)
    (halive : (s.kern.thr t).state ≠ .killable) (period_us wcet_us now : UInt64) :
    EdfInv (auEDFSetParams s t period_us wcet_us now).1 := by
  unfold auEDFSetParams
  by_cases h0 : t = 0 ∨ t = s.kern.idle_thr
  · rw [if_pos h0]
    exact h
  by_cases hbad : period_us = 0 ∨ wcet_us = 0 ∨ wcet_us > period_us
  · rw [if_neg h0, if_pos hbad]
    exact h
  rw [if_neg h0, if_neg hbad]
  dsimp only
  simp only [not_or, gt_iff_lt, UInt64.not_lt] at hbad
  have hadd := edfJobUtilQ16_le hbad.1 hbad.2.2
  have hold : (if (s.kern.thr t).edf_enabled then s.util t else 0).toNat = s.share t := by
    rw [h.share_eq]
    split_ifs <;> rfl
  have hshare := h.share_le t
  have hle := h.ledger.le
  generalize hadd' : edfJobUtilQ16 period_us wcet_us = add at hadd
  generalize (if (s.kern.thr t).edf_enabled then s.util t else 0) = old at hold
  have hsub := toNat_sub_of_le (a := s.edf_util_q16) (b := old) (by omega)
  have hsum : (s.edf_util_q16 - old + add).toNat = s.edf_util_q16.toNat - old.toNat + add.toNat := by
    rw [UInt64.toNat_add, hsub]
    apply Nat.mod_eq_of_lt
    omega
  by_cases hfull : s.edf_util_q16 - old + add > 0x10000
  · rw [if_pos hfull]
    exact h
  rw [if_neg hfull]
  dsimp only
  rw [gt_iff_lt, UInt64.not_lt, UInt64.le_iff_toNat_le] at hfull
  refine h.change ht rfl (fun a hat => ⟨?_, ?_, ?_⟩) (fun _ => ?_) ?_ hfull
  · rw [setThr_thr, if_neg hat]
  · rw [setThr_thr, if_neg hat]
    exact id
  · unfold EdfState.util
    dsimp only
    rw [Function.update_of_ne hat, Function.update_of_ne hat]
  · rw [setThr_thr, if_pos rfl]
    exact halive
  · have hnew : EdfState.share
        { kern := s.kern.setThr t { s.kern.thr t with
            edf_release_us := now
            edf_deadline_us := now + period_us
            edf_waiting := false
            edf_enabled := true }
          edf_period_us := Function.update s.edf_period_us t period_us
          edf_wcet_us := Function.update s.edf_wcet_us t wcet_us
          edf_util_q16 := s.edf_util_q16 - old + add } t = add.toNat := by
      unfold EdfState.share EdfState.util
      dsimp only
      rw [setThr_thr, if_pos rfl, if_pos ⟨rfl, halive⟩, Function.update_self,
        Function.update_self, hadd']
    rw [hnew]
    dsimp only
    omega

/-- What dropping a reservation does to the ledger. -/
theorem EdfInv.util_remove (h : EdfInv s) (t : ℕ) (h0 : t ≠ 0) :
    (auEDFRemove s t).edf_util_q16.toNat + s.share t = s.edf_util_q16.toNat := by
  have hle := h.share_le t
  have hshare := h.share_eq t
  unfold auEDFRemove
  by_cases he : (s.kern.thr t).edf_enabled = true
  · rw [if_neg fun hc => hc.elim h0 fun hn => hn he]
    rw [if_pos he] at hshare
    have hsub := toNat_sub_of_le (a := s.edf_util_q16) (b := s.util t) (by omega)
    dsimp only
    omega
  · rw [if_pos (Or.inr he), hshare, if_neg he]
    rfl

/-- The reservation of a thread is dropped. -/
theorem EdfInv.drop (h : EdfInv s) (h0 : t ≠ 0) (hlive : k.live = s.kern.live)
    (hoff : (k.thr t).edf_enabled = false)
    (hother : ∀ a, a ≠ t → (k.thr a).edf_enabled = (s.kern.thr a).edf_enabled ∧
      ((k.thr a).state = .killable → (s.kern.thr a).state = .killable)) :
    EdfInv { auEDFRemove s t with kern := k } := by
  have hutil := h.util_remove t h0
  have hjobs : (auEDFRemove s t).edf_period_us = s.edf_period_us ∧
      (auEDFRemove s t).edf_wcet_us = s.edf_wcet_us := by
    unfold auEDFRemove
    split_ifs <;> exact ⟨rfl, rfl⟩
  have hle := h.ledger.le
  by_cases ht : t ∈ s.kern.live
  · refine h.change ht hlive (fun a hat => ⟨(hother a hat).1, (hother a hat).2, ?_⟩) ?_ ?_ ?_
    · unfold EdfState.util
      dsimp only
      rw [hjobs.1, hjobs.2]
    · intro hon
      dsimp only at hon
      rw [hoff] at hon
      exact absurd hon Bool.false_ne_true
    · have hnone : EdfState.share { auEDFRemove s t with kern := k } t = 0 := by
        unfold EdfState.share
        dsimp only
        rw [hoff]
        exact if_neg fun hc => Bool.false_ne_true hc.1
      rw [hnone]
      exact hutil
    · dsimp only
      omega
  · have hno : (s.kern.thr t).edf_enabled = false := by
      rw [← Bool.not_eq_true]
      exact fun he => ht (h.live t he)
    have hsame : auEDFRemove s t = s := by
      unfold auEDFRemove
      rw [if_pos (Or.inr (by rw [hno]; exact Bool.false_ne_true))]
    rw [hsame]
    have hen : ∀ a, (k.thr a).edf_enabled = (s.kern.thr a).edf_enabled := by
      intro a
      by_cases hat : a = t
      · rw [hat, hoff, hno]
      · exact (hother a hat).1
    apply h.congr (hlive ▸ h.nodup) hen
    · intro a ha
      rw [hlive]
      exact h.live a (hen a ▸ ha)
    · intro a ha hkill
      have hat : a ≠ t := by
        rintro rfl
        rw [hoff] at ha
        exact Bool.false_ne_true ha
      exact h.alive a (hen a ▸ ha) ((hother a hat).2 hkill)
    · rw [hlive]

theorem EdfInv.remove (h : EdfInv s) (t : ℕ) : EdfInv (auEDFRemove s t) := by
  by_cases hc : t = 0 ∨ ¬(s.kern.thr t).edf_enabled
  · have hsame : auEDFRemove s t = s := if_pos hc
    rw [hsame]
    exact h
  · have hkern : (auEDFRemove s t).kern = Sched.auEDFRemove s.kern t := by
      unfold auEDFRemove
      rw [if_neg hc]
    have hdrop := h.drop (t := t) (k := (auEDFRemove s t).kern) (fun h0 => hc (Or.inl h0))
    rw [hkern] at hdrop
    have hthr : ∀ a, ((Sched.auEDFRemove s.kern t).thr a) = if a = t then
        { s.kern.thr t with edf_enabled := false, edf_waiting := false } else s.kern.thr a := by
      intro a
      unfold Sched.auEDFRemove
      rw [if_neg fun hn => hc (Or.inr hn), setThr_thr]
    have hinv := hdrop (auEDFRemove_live s.kern t) (by rw [hthr, if_pos rfl]) fun a hat => by
      rw [hthr, if_neg hat]
      exact ⟨rfl, id⟩
    rw [← hkern] at hinv
    exact hinv

theorem EdfInv.moveToTrash (h : EdfInv s) (t : ℕ) : EdfInv (auThreadMoveToTrash s t) := by
  unfold auThreadMoveToTrash
  split_ifs with hc
  · exact h
  obtain ⟨h0, hk⟩ := not_or.mp hc
  have hdata := (((SameData.unlinkIfFound .ready
    ((Sched.auEDFRemove s.kern t).setState t .killable) t).trans
    (.unlinkIfFound .blocked _ t)).trans (.unlinkIfFound .sleep _ t)).trans (.schedLink .trash _ t)
  have hkern : Sched.auThreadMoveToTrash s.kern t = schedLink .trash (unlinkIfFound .sleep
      (unlinkIfFound .blocked (unlinkIfFound .ready
        ((Sched.auEDFRemove s.kern t).setState t .killable) t) t) t) t := by
    unfold Sched.auThreadMoveToTrash
    rw [if_neg hc]
  have hpas := Passive.of_untouched (.of_sameData hdata)
  rw [← hkern] at hpas
  have hoff : ∀ a, ((Sched.auEDFRemove s.kern t).thr a).edf_enabled =
      if a = t then false else (s.kern.thr a).edf_enabled := by
    intro a
    unfold Sched.auEDFRemove
    by_cases he : (s.kern.thr t).edf_enabled = true
    · rw [if_neg fun hn => hn he, setThr_thr]
      split_ifs <;> rfl
    · rw [if_pos he]
      by_cases hat : a = t
      · rw [if_pos hat, hat, Bool.not_eq_true] at *
        exact he
      · rw [if_neg hat]
  apply h.drop h0
  · rw [hpas.live]
    exact auEDFRemove_live s.kern t
  · rw [hpas.enabled]
    unfold State.setState
    rw [setThr_thr, if_pos rfl]
    dsimp only
    rw [hoff, if_pos rfl]
  · intro a hat
    have hstate : ((Sched.auEDFRemove s.kern t).setState t .killable).thr a =
        (Sched.auEDFRemove s.kern t).thr a := by
      unfold State.setState
      rw [setThr_thr, if_neg hat]
    constructor
    · rw [hpas.enabled, hstate, hoff, if_neg hat]
    · intro hkill
      have hold := hpas.killable a hkill
      rw [hstate, auEDFRemove_state] at hold
      exact hold

/-- No thread with a reservation leaves by `AuExitSubThread`. -/
def EdfOk (s : EdfState) : EdfOp → Prop
  | .exitSubThread _ threads t id =>
    ∀ x ∈ exitTarget s threads t id, (s.kern.thr x).edf_enabled = false
  | _ => True

instance (s : EdfState) : DecidablePred (EdfOk s) := fun op => by
  cases op <;> unfold EdfOk <;> infer_instance

theorem EdfInv.exitSubThread (h : EdfInv s) (found : ℕ → Bool) (threads : List ℕ) (t id : ℕ)
    (hok : EdfOk s (.exitSubThread found threads t id)) :
    EdfInv (auExitSubThread found s threads t id) := by
  unfold auExitSubThread
  split
  · exact h
  · next x hx =>
    have hmark := h.mark (hok x hx)
    have hawake := hmark.passive (.of_untouched (.awakeWaiters found _ x))
    exact hawake.moveToTrash x

theorem EdfInv.waitPeriod (h : EdfInv s) (t : ℕ) (now : UInt64) :
    EdfInv (auEDFWaitPeriod s t now) := by
  unfold auEDFWaitPeriod
  split_ifs
  · exact h
  · dsimp only
    generalize (if _ ≤ now then _ else _ : UInt64) = release
    have hset := Untouched.setThr s.kern t { s.kern.thr t with
      edf_release_us := release
      edf_deadline_us := release + s.edf_period_us t
      edf_waiting := true } rfl id
    exact h.passive (.of_untouched ((hset.trans (.blockThread _ t)).trans (.scheduleNext _)))

theorem EdfInv.step (h : EdfInv s) {op : EdfOp} (hok : EdfOk s op) : EdfInv (edfStep s op) := by
  cases op with
  | setParams t period_us wcet_us now =>
    simp only [edfStep]
    split_ifs with hc
    · exact h.setParams hc.1 hc.2 period_us wcet_us now
    · exact h
  | remove t => exact h.remove t
  | waitPeriod t now => exact h.waitPeriod t now
  | moveToTrash t => exact h.moveToTrash t
  | exitSubThread found threads t id => exact h.exitSubThread found threads t id hok
  | reap t => exact h.reap t
  | sched a =>
    simp only [edfStep]
    split_ifs with ha
    · by_cases hc : ∃ t, a = .create t
      · obtain ⟨t, rfl⟩ := hc
        exact h.create t
      · exact h.passive (Passive.step s.kern ha fun t he => hc ⟨t, he⟩)
    · exact h

theorem edfInv_boot (idle : ℕ) : EdfInv (boot idle) := by
  have hempty : EdfInv { kern := ⟨fun _ => {}, [], fun _ => {}, 0, idle, 0⟩ } :=
    ⟨⟨rfl, Nat.zero_le _⟩, List.nodup_nil, nofun, nofun⟩
  exact (hempty.createKthread (t := idle) List.not_mem_nil).passive
    ⟨rfl, fun _ => rfl, fun _ hk => hk⟩

/-- In every run in which no thread with a reservation leaves by `AuExitSubThread`, the ledger is
right in every state. -/
theorem exec_ledgerRight (idle : ℕ) (ops : List EdfOp) (h : Respects EdfOk edfStep (boot idle) ops) :
    LedgerRight (run edfStep (boot idle) ops) := by
  have hinv := h.invariant (I := EdfInv) (fun _ _ hi hok => hi.step hok) (edfInv_boot idle)
  exact hinv.ledger

def edfRun : List EdfOp :=
  [.sched (.create 2), .setParams 2 10 5 0, .sched (.create 4), .setParams 4 4 1 0,
    .setParams 2 20 5 0, .waitPeriod 4 3, .moveToTrash 2, .reap 2,
    .exitSubThread (fun _ => false) [4] 4 3, .remove 4]

theorem exec_ledgerRight_two : LedgerRight (run edfStep (boot 1) edfRun) :=
  exec_ledgerRight 1 edfRun (by decide)

/-- Half of the processor stays reserved for a thread that left. -/
theorem not_exec_ledgerRight :
    ¬ ∀ idle ops, LedgerRight (run edfStep (boot idle) ops) := by
  intro h
  have hsum := (h 1 [.sched (.create 2), .setParams 2 10 5 0,
    .exitSubThread (fun _ => false) [2] 2 1]).sum
  exact absurd hsum (by decide)

end Xeneva.Sched.Edf
