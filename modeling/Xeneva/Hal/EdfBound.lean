import Xeneva.Hal.Edf

/-!
# What admission promises

A job's share of the processor is exact here, while the ledger counts it in units of 2⁻¹⁶ and
rounds it down. Admitted jobs fit as long as the ledger leaves a unit free for each job that is
rounded, and no shift overflows.
-/

namespace Xeneva.Sched.Edf
open Base

variable {s s' : EdfState} {t : ℕ}

/-- What the admitted job of a thread takes of the processor. -/
def EdfState.exactShare (s : EdfState) (t : ℕ) : ℚ :=
  if (s.kern.thr t).edf_enabled then (s.edf_wcet_us t).toNat / (s.edf_period_us t).toNat else 0

/-- The admitted jobs together need no more than the processor. -/
def Feasible (s : EdfState) : Prop := ∀ T : Finset ℕ, ∑ t ∈ T, s.exactShare t ≤ 1

/-- The share of a job is a whole number of units. -/
def Whole (period_us wcet_us : UInt64) : Prop := period_us.toNat ∣ wcet_us.toNat * 0x10000

instance (period_us wcet_us : UInt64) : Decidable (Whole period_us wcet_us) :=
  inferInstanceAs (Decidable (_ ∣ _))

/-- The reservation of a thread is rounded down, by less than a unit. -/
def EdfState.rounded (s : EdfState) (t : ℕ) : ℕ :=
  if (s.kern.thr t).edf_enabled ∧ ¬Whole (s.edf_period_us t) (s.edf_wcet_us t) then 1 else 0

/-- The shift does not overflow, and if the ledger admits the job then it leaves a unit for each
job that is rounded. -/
structure LeavesRoom (s : EdfState) (t : ℕ) (period_us wcet_us : UInt64) : Prop where
  shift : wcet_us.toNat < 2 ^ 48
  room : ∀ T : Finset ℕ, t ∉ T →
    let old := if (s.kern.thr t).edf_enabled then s.util t else 0
    let util := (s.edf_util_q16 - old + edfJobUtilQ16 period_us wcet_us).toNat
    util ≤ 0x10000 →
      util + (∑ x ∈ T, s.rounded x + if Whole period_us wcet_us then 0 else 1) ≤ 0x10000

/-- Only admitting a job has a condition. -/
def RoomOk (s : EdfState) : EdfOp → Prop
  | .setParams t period_us wcet_us _ =>
    period_us ≠ 0 → wcet_us ≤ period_us → LeavesRoom s t period_us wcet_us
  | _ => True

/-- What the ledger holds for a thread. -/
def EdfState.reserved (s : EdfState) (t : ℕ) : ℕ :=
  if (s.kern.thr t).edf_enabled then (s.util t).toNat else 0

structure ShareInv (s : EdfState) : Prop where
  ledger : ∀ T : Finset ℕ, ∑ t ∈ T, s.reserved t ≤ s.edf_util_q16.toNat
  room : ∀ T : Finset ℕ, s.edf_util_q16.toNat + ∑ t ∈ T, s.rounded t ≤ 0x10000
  jobs : ∀ t, (s.kern.thr t).edf_enabled →
    s.edf_period_us t ≠ 0 ∧ (s.edf_wcet_us t).toNat < 2 ^ 48

theorem edfJobUtilQ16_toNat {period_us wcet_us : UInt64} (hw : wcet_us.toNat < 2 ^ 48) :
    (edfJobUtilQ16 period_us wcet_us).toNat = wcet_us.toNat * 0x10000 / period_us.toNat := by
  have hfit : wcet_us.toNat * 2 ^ 16 < 2 ^ 64 := by omega
  unfold edfJobUtilQ16
  rw [UInt64.toNat_div, UInt64.toNat_shiftLeft, Nat.shiftLeft_eq]
  exact congrArg (· / period_us.toNat) (Nat.mod_eq_of_lt hfit)

/-- A job takes its units and less than one more, or just its units. -/
theorem job_le {period_us wcet_us : UInt64} (hp : period_us ≠ 0) (hw : wcet_us.toNat < 2 ^ 48) :
    wcet_us.toNat * 0x10000 ≤ period_us.toNat *
      ((edfJobUtilQ16 period_us wcet_us).toNat + if Whole period_us wcet_us then 0 else 1) := by
  have hpos : 0 < period_us.toNat := by
    rw [Nat.pos_iff_ne_zero]
    exact fun h0 => hp (UInt64.toNat_inj.mp h0)
  rw [edfJobUtilQ16_toNat hw]
  by_cases hwhole : Whole period_us wcet_us
  · rw [if_pos hwhole, Nat.add_zero, Nat.mul_div_cancel' hwhole]
  · rw [if_neg hwhole]
    exact (Nat.lt_mul_div_succ _ hpos).le

theorem ShareInv.exactShare_le (h : ShareInv s) (t : ℕ) :
    s.exactShare t ≤ ((s.reserved t + s.rounded t : ℕ) : ℚ) / 0x10000 := by
  by_cases he : (s.kern.thr t).edf_enabled = true
  · obtain ⟨hp, hw⟩ := h.jobs t he
    have hpos : 0 < (s.edf_period_us t).toNat := by
      rw [Nat.pos_iff_ne_zero]
      exact fun h0 => hp (UInt64.toNat_inj.mp h0)
    have hround : s.rounded t = if Whole (s.edf_period_us t) (s.edf_wcet_us t) then 0 else 1 := by
      unfold EdfState.rounded
      by_cases hwhole : Whole (s.edf_period_us t) (s.edf_wcet_us t)
      · rw [if_pos hwhole, if_neg fun hc => hc.2 hwhole]
      · rw [if_neg hwhole, if_pos ⟨he, hwhole⟩]
    rw [EdfState.exactShare, EdfState.reserved, if_pos he, if_pos he, hround,
      div_le_div_iff₀ (by exact_mod_cast hpos) (by norm_num)]
    rw [mul_comm (Nat.cast _ : ℚ) ((s.edf_period_us t).toNat : ℚ)]
    exact_mod_cast job_le hp hw
  · rw [EdfState.exactShare, if_neg he]
    exact div_nonneg (Nat.cast_nonneg _) (by norm_num)

theorem ShareInv.feasible (h : ShareInv s) : Feasible s := by
  intro T
  have hunits : (∑ t ∈ T, (s.reserved t + s.rounded t)) ≤ 0x10000 := by
    have hledger := h.ledger T
    have hroom := h.room T
    rw [Finset.sum_add_distrib]
    omega
  calc ∑ t ∈ T, s.exactShare t
      ≤ ∑ t ∈ T, ((s.reserved t + s.rounded t : ℕ) : ℚ) / 0x10000 :=
        Finset.sum_le_sum fun t _ => h.exactShare_le t
    _ = ((∑ t ∈ T, (s.reserved t + s.rounded t) : ℕ) : ℚ) / 0x10000 := by
        rw [← Finset.sum_div, Nat.cast_sum]
    _ ≤ 1 := by
        rw [div_le_iff₀ (by norm_num), one_mul]
        exact_mod_cast hunits

/-- The ledger and the jobs are as before, and no thread has a new reservation. -/
structure Fewer (s s' : EdfState) : Prop where
  period : s'.edf_period_us = s.edf_period_us
  wcet : s'.edf_wcet_us = s.edf_wcet_us
  util : s'.edf_util_q16 = s.edf_util_q16
  enabled : ∀ a, (s'.kern.thr a).edf_enabled = true → (s.kern.thr a).edf_enabled = true

theorem Fewer.refl (s : EdfState) : Fewer s s := ⟨rfl, rfl, rfl, fun _ => id⟩

theorem Fewer.trans {u : EdfState} (h : Fewer s s') (h' : Fewer s' u) : Fewer s u :=
  ⟨h'.period.trans h.period, h'.wcet.trans h.wcet, h'.util.trans h.util,
    fun a ha => h.enabled a (h'.enabled a ha)⟩

theorem Fewer.of_untouched {k : State} (h : Untouched s.kern k) : Fewer s { s with kern := k } :=
  ⟨rfl, rfl, rfl, fun a ha => h.enabled a ▸ ha⟩

theorem Fewer.rounded_le (h : Fewer s s') (a : ℕ) : s'.rounded a ≤ s.rounded a := by
  unfold EdfState.rounded
  rw [h.period, h.wcet]
  split
  case isTrue he => rw [if_pos ⟨h.enabled a he.1, he.2⟩]
  case isFalse => exact Nat.zero_le _

theorem Fewer.reserved_le (h : Fewer s s') (a : ℕ) : s'.reserved a ≤ s.reserved a := by
  unfold EdfState.reserved EdfState.util
  rw [h.period, h.wcet]
  by_cases he : (s'.kern.thr a).edf_enabled = true
  · rw [if_pos he, if_pos (h.enabled a he)]
  · rw [if_neg he]
    exact Nat.zero_le _

theorem ShareInv.fewer (h : ShareInv s) (hf : Fewer s s') : ShareInv s' := by
  constructor
  · intro T
    rw [hf.util]
    exact (Finset.sum_le_sum fun a _ => hf.reserved_le a).trans (h.ledger T)
  · intro T
    have hsum := Finset.sum_le_sum (s := T) fun a _ => hf.rounded_le a
    have hroom := h.room T
    rw [hf.util]
    omega
  · intro a ha
    rw [hf.period, hf.wcet]
    exact h.jobs a (hf.enabled a ha)

/-! ## Reservations -/

/-- One summand changes, and the bound by as much. -/
theorem sum_le_change {f g : ℕ → ℕ} {a b : ℕ} (h : ∀ T : Finset ℕ, ∑ x ∈ T, f x ≤ a)
    (hne : ∀ x, x ≠ t → g x ≤ f x) (hab : a + g t ≤ b + f t) (T : Finset ℕ) :
    ∑ x ∈ T, g x ≤ b := by
  have hall := h (insert t T)
  rw [← Finset.add_sum_erase _ f (Finset.mem_insert_self t T)] at hall
  have hrest : ∑ x ∈ (insert t T).erase t, g x ≤ ∑ x ∈ (insert t T).erase t, f x :=
    Finset.sum_le_sum fun x hx => hne x (Finset.ne_of_mem_erase hx)
  calc ∑ x ∈ T, g x
      ≤ ∑ x ∈ insert t T, g x := Finset.sum_le_sum_of_subset (Finset.subset_insert t T)
    _ = g t + ∑ x ∈ (insert t T).erase t, g x :=
        (Finset.add_sum_erase _ g (Finset.mem_insert_self t T)).symm
    _ ≤ b := by omega

theorem ShareInv.reserved_le (h : ShareInv s) (t : ℕ) : s.reserved t ≤ s.edf_util_q16.toNat := by
  have hone := h.ledger {t}
  rwa [Finset.sum_singleton] at hone

/-- The ledger without what it holds for a thread. -/
theorem ShareInv.toNat_sub (h : ShareInv s) (t : ℕ) :
    (s.edf_util_q16 - if (s.kern.thr t).edf_enabled then s.util t else 0).toNat =
      s.edf_util_q16.toNat - s.reserved t := by
  have hle := h.reserved_le t
  have hold : (if (s.kern.thr t).edf_enabled then s.util t else 0).toNat = s.reserved t := by
    unfold EdfState.reserved
    split_ifs <;> rfl
  rw [← hold] at hle ⊢
  exact toNat_sub_of_le hle

/-- A reservation that is dropped is taken from the ledger. -/
theorem auEDFRemove_cases (s : EdfState) (t : ℕ) : auEDFRemove s t = s ∨
    (s.kern.thr t).edf_enabled = true ∧ ∃ u, Fewer s u ∧ (u.kern.thr t).edf_enabled = false ∧
      auEDFRemove s t = { u with edf_util_q16 := s.edf_util_q16 - s.util t } := by
  by_cases hc : t = 0 ∨ ¬(s.kern.thr t).edf_enabled
  · exact .inl (if_pos hc)
  right
  obtain ⟨-, he⟩ := not_or.mp hc
  rw [not_not] at he
  refine ⟨he, { s with kern := Sched.auEDFRemove s.kern t }, ⟨rfl, rfl, rfl, fun a ha => ?_⟩, ?_,
    if_neg hc⟩
  · by_cases hat : a = t
    · exact hat ▸ he
    · rwa [Sched.auEDFRemove, if_neg (not_not.mpr he), setThr_thr, if_neg hat] at ha
  · rw [Sched.auEDFRemove, if_neg (not_not.mpr he), setThr_thr, if_pos rfl]

theorem rounded_remove_le (s : EdfState) (t a : ℕ) :
    (auEDFRemove s t).rounded a ≤ s.rounded a := by
  rcases auEDFRemove_cases s t with hsame | ⟨-, u, hu, -, hrem⟩
  · rw [hsame]
  · rw [hrem]
    exact hu.rounded_le a

theorem ShareInv.remove (h : ShareInv s) (t : ℕ) : ShareInv (auEDFRemove s t) := by
  rcases auEDFRemove_cases s t with hsame | ⟨he, u, hu, hoff, hrem⟩
  · rw [hsame]
    exact h
  have hinv := h.fewer hu
  have hutil := h.toNat_sub t
  rw [if_pos he] at hutil
  rw [hrem]
  constructor
  · apply sum_le_change (t := t) h.ledger
    · exact fun a _ => hu.reserved_le a
    · have hle := h.reserved_le t
      have hzero :
          EdfState.reserved { u with edf_util_q16 := s.edf_util_q16 - s.util t } t = 0 := by
        rw [EdfState.reserved, hoff]
        exact if_neg Bool.false_ne_true
      rw [hzero, hutil]
      omega
  · intro T
    have hroom := hinv.room T
    rw [hu.util] at hroom
    dsimp only
    rw [hutil]
    exact (Nat.add_le_add_right (Nat.sub_le _ _) _).trans hroom
  · exact hinv.jobs

/-- An admitted job is recorded, and the ledger pays for it. -/
structure Admitted (s s' : EdfState) (t : ℕ) (period_us wcet_us : UInt64) : Prop where
  valid : period_us ≠ 0 ∧ wcet_us ≤ period_us
  util : s'.edf_util_q16 = (s.edf_util_q16 - if (s.kern.thr t).edf_enabled then s.util t else 0) +
    edfJobUtilQ16 period_us wcet_us
  fits : s'.edf_util_q16.toNat ≤ 0x10000
  enabled : (s'.kern.thr t).edf_enabled = true
  job : s'.edf_period_us t = period_us ∧ s'.edf_wcet_us t = wcet_us
  thr : ∀ a, a ≠ t → s'.kern.thr a = s.kern.thr a
  jobs : ∀ a, a ≠ t → s'.edf_period_us a = s.edf_period_us a ∧
    s'.edf_wcet_us a = s.edf_wcet_us a

theorem auEDFSetParams_cases (s : EdfState) (t : ℕ) (period_us wcet_us now : UInt64) :
    (auEDFSetParams s t period_us wcet_us now).1 = s ∨
      Admitted s (auEDFSetParams s t period_us wcet_us now).1 t period_us wcet_us := by
  unfold auEDFSetParams
  by_cases h0 : t = 0 ∨ t = s.kern.idle_thr
  · rw [if_pos h0]
    exact .inl rfl
  by_cases hbad : period_us = 0 ∨ wcet_us = 0 ∨ wcet_us > period_us
  · rw [if_neg h0, if_pos hbad]
    exact .inl rfl
  rw [if_neg h0, if_neg hbad]
  dsimp only
  generalize hold : (if (s.kern.thr t).edf_enabled then s.util t else 0) = old
  by_cases hfull : s.edf_util_q16 - old + edfJobUtilQ16 period_us wcet_us > 0x10000
  · rw [if_pos hfull]
    exact .inl rfl
  rw [if_neg hfull]
  simp only [not_or, gt_iff_lt, UInt64.not_lt] at hbad hfull
  right
  constructor
  · exact ⟨hbad.1, hbad.2.2⟩
  · rw [hold]
  · exact UInt64.le_iff_toNat_le.mp hfull
  · rw [setThr_thr, if_pos rfl]
  · exact ⟨Function.update_self _ _ _, Function.update_self _ _ _⟩
  · intro a hat
    rw [setThr_thr, if_neg hat]
  · intro a hat
    exact ⟨Function.update_of_ne hat _ _, Function.update_of_ne hat _ _⟩

theorem Admitted.rounded_of_ne {period_us wcet_us : UInt64}
    (ha : Admitted s s' t period_us wcet_us) {a : ℕ} (hat : a ≠ t) :
    s'.rounded a = s.rounded a := by
  rw [EdfState.rounded, EdfState.rounded, ha.thr a hat, (ha.jobs a hat).1, (ha.jobs a hat).2]

theorem ShareInv.admitted (h : ShareInv s) {period_us wcet_us : UInt64}
    (ha : Admitted s s' t period_us wcet_us) (hroom : LeavesRoom s t period_us wcet_us) :
    ShareInv s' := by
  have hadd := edfJobUtilQ16_le ha.valid.1 ha.valid.2
  have hsub := h.toNat_sub t
  have hmax := h.room ∅
  rw [Finset.sum_empty] at hmax
  have hutil : s'.edf_util_q16.toNat =
      s.edf_util_q16.toNat - s.reserved t + (edfJobUtilQ16 period_us wcet_us).toNat := by
    rw [ha.util, UInt64.toNat_add, hsub]
    apply Nat.mod_eq_of_lt
    omega
  constructor
  · apply sum_le_change (t := t) h.ledger
    · intro a hat
      rw [EdfState.reserved, EdfState.reserved, EdfState.util, EdfState.util, ha.thr a hat,
        (ha.jobs a hat).1, (ha.jobs a hat).2]
    · have hle := h.reserved_le t
      have hnew : s'.reserved t = (edfJobUtilQ16 period_us wcet_us).toNat := by
        rw [EdfState.reserved, if_pos ha.enabled, EdfState.util, ha.job.1, ha.job.2]
      omega
  · intro T
    have hrest := hroom.room (T.erase t) (Finset.notMem_erase t T)
    dsimp only at hrest
    rw [← ha.util] at hrest
    have hsum := hrest ha.fits
    have hnew : s'.rounded t = if Whole period_us wcet_us then 0 else 1 := by
      rw [EdfState.rounded, ha.job.1, ha.job.2]
      by_cases hw : Whole period_us wcet_us
      · rw [if_pos hw, if_neg fun hc => hc.2 hw]
      · rw [if_neg hw, if_pos ⟨ha.enabled, hw⟩]
    have hsplit : ∑ x ∈ T, s'.rounded x ≤ ∑ x ∈ T.erase t, s.rounded x + s'.rounded t :=
      calc ∑ x ∈ T, s'.rounded x
          ≤ ∑ x ∈ insert t (T.erase t), s'.rounded x :=
            Finset.sum_le_sum_of_subset (Finset.insert_erase_subset t T)
        _ = s'.rounded t + ∑ x ∈ T.erase t, s'.rounded x :=
            Finset.sum_insert (Finset.notMem_erase t T)
        _ = ∑ x ∈ T.erase t, s.rounded x + s'.rounded t := by
            rw [add_comm]
            congr 1
            exact Finset.sum_congr rfl fun x hx => ha.rounded_of_ne (Finset.ne_of_mem_erase hx)
    rw [hnew] at hsplit
    omega
  · intro a hen
    by_cases hat : a = t
    · rw [hat, ha.job.1, ha.job.2]
      exact ⟨ha.valid.1, hroom.shift⟩
    · rw [ha.thr a hat] at hen
      rw [(ha.jobs a hat).1, (ha.jobs a hat).2]
      exact h.jobs a hen

/-! ## Steps -/

/-- At most one reservation is dropped, and the rest of the step admits nothing. -/
def Dropped (s s' : EdfState) : Prop :=
  Fewer s s' ∨ ∃ u t, Fewer s u ∧ Fewer (auEDFRemove u t) s'

theorem Fewer.dropped {u : EdfState} (h : Fewer s u) (h' : Dropped u s') : Dropped s s' := by
  rcases h' with h' | ⟨v, t, hv, h'⟩
  · exact .inl (h.trans h')
  · exact .inr ⟨v, t, h.trans hv, h'⟩

/-- Moving between the lists leaves the marks. -/
theorem trashed_enabled (st : State) (t a : ℕ) :
    ((schedLink .trash (unlinkIfFound .sleep
      (unlinkIfFound .blocked (unlinkIfFound .ready st t) t) t) t).thr a).edf_enabled =
      (st.thr a).edf_enabled :=
  (Untouched.of_sameData ((((SameData.unlinkIfFound .ready st t).trans
    (.unlinkIfFound .blocked _ t)).trans (.unlinkIfFound .sleep _ t)).trans
    (.schedLink .trash _ t))).enabled a

theorem Dropped.moveToTrash (s : EdfState) (t : ℕ) : Dropped s (auThreadMoveToTrash s t) := by
  unfold auThreadMoveToTrash
  split_ifs with hc
  · exact .inl (.refl s)
  have hkern : (auEDFRemove s t).kern = Sched.auEDFRemove s.kern t := by
    unfold auEDFRemove
    by_cases he : (s.kern.thr t).edf_enabled = true
    · rw [if_neg fun hn => hn.elim (fun h0 => hc (.inl h0)) fun hn => hn he]
    · rw [if_pos (.inr he), Sched.auEDFRemove, if_pos he]
  have hmark : ∀ a, (((Sched.auEDFRemove s.kern t).setState t .killable).thr a).edf_enabled =
      ((Sched.auEDFRemove s.kern t).thr a).edf_enabled := by
    intro a
    rw [State.setState, setThr_thr]
    by_cases hat : a = t
    · rw [if_pos hat, hat]
    · rw [if_neg hat]
  have hen : ∀ a, ((Sched.auThreadMoveToTrash s.kern t).thr a).edf_enabled =
      ((Sched.auEDFRemove s.kern t).thr a).edf_enabled := by
    intro a
    rw [Sched.auThreadMoveToTrash, if_neg hc, trashed_enabled]
    exact hmark a
  refine .inr ⟨s, t, .refl s, rfl, rfl, rfl, fun a ha => ?_⟩
  rw [hkern, ← hen a]
  exact ha

theorem Dropped.exitSubThread (s : EdfState) (found : ℕ → Bool) (threads : List ℕ) (t id : ℕ) :
    Dropped s (auExitSubThread found s threads t id) := by
  unfold auExitSubThread
  split
  · exact .inl (.refl s)
  case h_2 x hx =>
    have hmark : ∀ a, ((s.kern.setState x .killable).thr a).edf_enabled =
        (s.kern.thr a).edf_enabled := by
      intro a
      rw [State.setState, setThr_thr]
      by_cases hax : a = x
      · rw [if_pos hax, hax]
      · rw [if_neg hax]
    have hawake := Untouched.awakeWaiters found (s.kern.setState x .killable) x
    generalize auThreadAwakeWaiters found (s.kern.setState x .killable) x = k at hawake ⊢
    have hfew : Fewer s { s with kern := k } :=
      ⟨rfl, rfl, rfl, fun a ha => hmark a ▸ hawake.enabled a ▸ ha⟩
    exact hfew.dropped (.moveToTrash _ x)

theorem Fewer.waitPeriod (s : EdfState) (t : ℕ) (now : UInt64) :
    Fewer s (auEDFWaitPeriod s t now) := by
  unfold auEDFWaitPeriod
  split_ifs
  · exact .refl s
  · dsimp only
    generalize (if _ ≤ now then _ else _ : UInt64) = release
    have hset := Untouched.setThr s.kern t { s.kern.thr t with
      edf_release_us := release
      edf_deadline_us := release + s.edf_period_us t
      edf_waiting := true } rfl id
    exact .of_untouched ((hset.trans (.blockThread _ t)).trans (.scheduleNext _))

theorem Fewer.create (s : EdfState) (t : ℕ) :
    Fewer s { s with kern := auCreateKthread s.kern t } := by
  refine ⟨rfl, rfl, rfl, fun a ha => ?_⟩
  have hdata := SameData.schedLink .ready { s.kern.setThr t { thread_id := s.kern.thread_id } with
    live := t :: s.kern.live, thread_id := s.kern.thread_id + 1 } t
  have hkern : auCreateKthread s.kern t = schedLink .ready
      { s.kern.setThr t { thread_id := s.kern.thread_id } with
        live := t :: s.kern.live, thread_id := s.kern.thread_id + 1 } t := rfl
  dsimp only at ha
  rw [hkern, (Untouched.of_sameData hdata).enabled a] at ha
  dsimp only at ha
  rw [setThr_thr] at ha
  by_cases hat : a = t
  · rw [if_pos hat] at ha
    exact absurd ha Bool.false_ne_true
  · rwa [if_neg hat] at ha

theorem Fewer.sched (s : EdfState) {a : Act} (ha : passive a) :
    Fewer s { s with kern := Sched.step s.kern a } := by
  by_cases hc : ∃ t, a = .create t
  · obtain ⟨t, rfl⟩ := hc
    simp only [Sched.step]
    split_ifs
    · exact .refl s
    · exact .create s t
  · have hpas := Passive.step s.kern ha fun t he => hc ⟨t, he⟩
    exact ⟨rfl, rfl, rfl, fun a ha => hpas.enabled a ▸ ha⟩

/-- All that a step does to reservations. -/
theorem edfStep_cases (s : EdfState) (op : EdfOp) : Dropped s (edfStep s op) ∨
    ∃ t period_us wcet_us now, op = .setParams t period_us wcet_us now ∧
      Admitted s (edfStep s op) t period_us wcet_us := by
  cases op with
  | setParams t period_us wcet_us now =>
    simp only [edfStep]
    split_ifs
    · rcases auEDFSetParams_cases s t period_us wcet_us now with hsame | ha
      · rw [hsame]
        exact .inl (.inl (.refl s))
      · exact .inr ⟨t, period_us, wcet_us, now, rfl, ha⟩
    · exact .inl (.inl (.refl s))
  | remove t => exact .inl (.inr ⟨s, t, .refl s, .refl _⟩)
  | waitPeriod t now => exact .inl (.inl (.waitPeriod s t now))
  | moveToTrash t => exact .inl (.moveToTrash s t)
  | exitSubThread found threads t id => exact .inl (.exitSubThread s found threads t id)
  | reap t =>
    simp only [edfStep, reapThread]
    split_ifs
    · exact .inl (.inl ⟨rfl, rfl, rfl, fun a ha =>
        (Untouched.of_sameData (.schedUnlink .trash s.kern t)).enabled a ▸ ha⟩)
    · exact .inl (.inl (.refl s))
  | sched a =>
    simp only [edfStep]
    split_ifs with ha
    · exact .inl (.inl (.sched s ha))
    · exact .inl (.inl (.refl s))

theorem ShareInv.step (h : ShareInv s) {op : EdfOp} (hok : RoomOk s op) :
    ShareInv (edfStep s op) := by
  rcases edfStep_cases s op with (hf | ⟨u, t, hu, hf⟩) | ⟨t, period_us, wcet_us, now, rfl, ha⟩
  · exact h.fewer hf
  · exact ((h.fewer hu).remove t).fewer hf
  · exact h.admitted ha (hok ha.valid.1 ha.valid.2)

theorem Fewer.boot (idle : ℕ) :
    Fewer { kern := ⟨fun _ => {}, [], fun _ => {}, 0, idle, 0⟩ } (boot idle) :=
  (Fewer.create _ idle).trans ⟨rfl, rfl, rfl, fun _ => id⟩

theorem shareInv_boot (idle : ℕ) : ShareInv (boot idle) := by
  have hempty : ShareInv { kern := ⟨fun _ => {}, [], fun _ => {}, 0, idle, 0⟩ } := by
    refine ⟨fun T => ?_, fun T => ?_, nofun⟩
    · simp [EdfState.reserved]
    · simp [EdfState.rounded]
  exact hempty.fewer (Fewer.boot idle)

/-- In every run that admits a job only where the ledger leaves room for what rounding drops, the
admitted jobs need no more than the processor in every state. -/
theorem exec_feasible (idle : ℕ) (ops : List EdfOp) (h : Respects RoomOk edfStep (boot idle) ops) :
    Feasible (run edfStep (boot idle) ops) := by
  have hinv := h.invariant (I := ShareInv) (fun _ _ hi hok => hi.step hok) (shareInv_boot idle)
  exact hinv.feasible

/-- A job that is a whole number of units. -/
def WholeOp : EdfOp → Prop
  | .setParams _ period_us wcet_us _ => wcet_us.toNat < 2 ^ 48 ∧ Whole period_us wcet_us
  | _ => True

instance : DecidablePred WholeOp
  | .setParams .. => inferInstanceAs (Decidable (_ ∧ _))
  | .remove _ | .waitPeriod .. | .moveToTrash _ | .exitSubThread .. | .reap _ | .sched _ =>
    isTrue trivial

theorem rounded_step (h : ∀ a, s.rounded a = 0) {op : EdfOp} (hop : WholeOp op) (a : ℕ) :
    (edfStep s op).rounded a = 0 := by
  rcases edfStep_cases s op with (hf | ⟨u, t, hu, hf⟩) | ⟨t, period_us, wcet_us, now, rfl, ha⟩
  · exact Nat.le_zero.mp (h a ▸ hf.rounded_le a)
  · have hrem := (hf.rounded_le a).trans (rounded_remove_le u t a)
    exact Nat.le_zero.mp (h a ▸ hrem.trans (hu.rounded_le a))
  · by_cases hat : a = t
    · rw [hat, EdfState.rounded, ha.job.1, ha.job.2]
      exact if_neg fun hc => hc.2 hop.2
    · rw [ha.rounded_of_ne hat]
      exact h a

/-- Where all jobs are whole there is room. -/
theorem respects_whole (idle : ℕ) (ops : List EdfOp) (h : ∀ op ∈ ops, WholeOp op) :
    Respects RoomOk edfStep (boot idle) ops := by
  have hboot : ∀ a, (boot idle).rounded a = 0 := fun a =>
    Nat.le_zero.mp ((Fewer.boot idle).rounded_le a)
  apply (respects_mem _ ops).imp (I := fun s => ∀ a, s.rounded a = 0) _ hboot
  intro s op hs hop
  refine ⟨rounded_step hs (h op hop), ?_⟩
  cases op with
  | setParams t period_us wcet_us now =>
    intro _ _
    refine ⟨(h _ hop).1, fun T _ => ?_⟩
    intro old util hle
    rw [if_pos (h _ hop).2, Finset.sum_eq_zero fun x _ => hs x]
    exact hle
  | _ => trivial

def wholeRun : List EdfOp :=
  [.sched (.create 2), .setParams 2 8 3 0, .sched (.create 4), .setParams 4 2 1 0, .waitPeriod 4 3,
    .setParams 2 4 1 9, .remove 4, .moveToTrash 2]

theorem exec_feasible_whole : Feasible (run edfStep (boot 1) wholeRun) :=
  exec_feasible 1 wholeRun (respects_whole 1 wholeRun (by decide))

/-- One job has the whole processor, and another is so short that it is rounded to nothing. -/
theorem not_exec_feasible : ¬ ∀ idle ops, Feasible (run edfStep (boot idle) ops) := by
  intro h
  have hsum := h 1 [.sched (.create 2), .setParams 2 1000 1000 0, .sched (.create 4),
    .setParams 4 200000 3 0] {2, 4}
  have h2 : EdfState.exactShare (run edfStep (boot 1) [.sched (.create 2),
      .setParams 2 1000 1000 0, .sched (.create 4), .setParams 4 200000 3 0]) 2 =
      ((1000 : ℕ) : ℚ) / (1000 : ℕ) := rfl
  have h4 : EdfState.exactShare (run edfStep (boot 1) [.sched (.create 2),
      .setParams 2 1000 1000 0, .sched (.create 4), .setParams 4 200000 3 0]) 4 =
      ((3 : ℕ) : ℚ) / (200000 : ℕ) := rfl
  rw [Finset.sum_pair (by decide), h2, h4] at hsum
  norm_num at hsum

end Xeneva.Sched.Edf
