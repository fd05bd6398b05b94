import Xeneva.Hal.Links

/-!
# Integrity of the scheduler lists

Every live thread stands in exactly one list and its state is one that list admits. The
functions that search the lists before they touch them keep this for any live thread;
those that trust their caller keep it under the condition `SchedSafe` states for them.
`AuExitSubThread` marks its thread before it moves it to the trash, and the move then
returns early, so it keeps the lists only where there is nothing to move.
-/

namespace Xeneva.Sched
open Base

/-- The lists hold the threads `m`, which are the live ones, each with a fitting state. -/
structure SchedInv (st : State) (m : Queue → List ℕ) : Prop extends Links st m where
  live : ∀ t, t ∈ st.live ↔ ∃ q, t ∈ m q
  live_nodup : st.live.Nodup
  state : ∀ q, ∀ t ∈ m q, (st.thr t).state ∈ admits q

variable {st st' : State} {m m' : Queue → List ℕ} {q r : Queue} {t : ℕ}

theorem SchedInv.length_le (h : SchedInv st m) (q : Queue) : (m q).length ≤ st.live.length :=
  ((h.nodup q).subperm fun t ht => (h.live t).mpr ⟨q, ht⟩).length_le

theorem Links.members_eq (h : Links st m) (hlen : (m q).length ≤ st.live.length) :
    st.members q = m q := (h.linked q).walk_eq hlen

theorem SchedInv.members_eq (h : SchedInv st m) (q : Queue) : st.members q = m q :=
  h.toLinks.members_eq (h.length_le q)

/-- The list a state belongs to, if only one admits it. -/
theorem SchedInv.queue_of (h : SchedInv st m) (ht : t ∈ m q) :
    ((st.thr t).state = .sleep → q = .sleep) ∧ ((st.thr t).state = .blocked → q = .blocked) ∧
      ((st.thr t).state = .running → q = .ready) ∧ ((st.thr t).state = .killable ↔ q = .trash) := by
  have hs := h.state q t ht
  cases hst : (st.thr t).state <;> cases q <;> simp [admits, hst] at hs ⊢

/-! ## Threads that change place -/

/-- The threads after `t` moved from `q` to the end of `r`. -/
def moveTo (m : Queue → List ℕ) (t : ℕ) (q r : Queue) : Queue → List ℕ :=
  let m' := Function.update m q ((m q).erase t)
  Function.update m' r (m' r ++ [t])

theorem Links.mem_erase (h : Links st m) (ht : t ∈ m q) (k : Queue) (a : ℕ) :
    a ∈ Function.update m q ((m q).erase t) k ↔ a ≠ t ∧ a ∈ m k := by
  by_cases hk : k = q
  · subst hk
    rw [Function.update_self]
    exact (h.nodup k).mem_erase_iff
  · rw [Function.update_of_ne hk]
    refine ⟨fun ha => ⟨?_, ha⟩, And.right⟩
    rintro rfl
    exact hk (h.unique k q a ha ht)

theorem Links.not_mem_erase (h : Links st m) (ht : t ∈ m q) (k : Queue) :
    t ∉ Function.update m q ((m q).erase t) k := fun hm => ((h.mem_erase ht k t).mp hm).1 rfl

theorem mem_append_update (m : Queue → List ℕ) (r k : Queue) (a : ℕ) :
    a ∈ Function.update m r (m r ++ [t]) k ↔ a ∈ m k ∨ a = t ∧ k = r := by
  by_cases hk : k = r
  · subst hk
    simp
  · simp [hk]

theorem Links.mem_moveTo (h : Links st m) (ht : t ∈ m q) (k : Queue) (a : ℕ) :
    a ∈ moveTo m t q r k ↔ a ≠ t ∧ a ∈ m k ∨ a = t ∧ k = r := by
  rw [moveTo, mem_append_update, h.mem_erase ht]

/-- Every thread outside `X` is still in its list, or in the ready list. -/
def Kept (X : ℕ → Prop) (m m' : Queue → List ℕ) : Prop :=
  ∀ a, ¬ X a → ∀ q, a ∈ m q → a ∈ m' q ∨ a ∈ m' .ready

variable {X : ℕ → Prop}

theorem Kept.refl (X : ℕ → Prop) (m : Queue → List ℕ) : Kept X m m := fun _ _ _ ha => .inl ha

theorem Kept.trans {m'' : Queue → List ℕ} (h : Kept X m m') (h' : Kept X m' m'') :
    Kept X m m'' := by
  intro a hX q ha
  rcases h a hX q ha with hq | hr
  · exact h' a hX q hq
  · exact .inr ((h' a hX .ready hr).elim id id)

theorem Links.kept_moveTo (h : Links st m) (ht : t ∈ m q) : Kept (· = t) m (moveTo m t q r) := by
  intro a hat k ha
  exact .inl ((h.mem_moveTo ht k a).mpr (.inl ⟨hat, ha⟩))

theorem Links.kept_ready (h : Links st m) (ht : t ∈ m q) (X : ℕ → Prop) :
    Kept X m (moveTo m t q .ready) := by
  intro a _ k ha
  by_cases hat : a = t
  · exact .inr ((h.mem_moveTo ht .ready a).mpr (.inr ⟨hat, rfl⟩))
  · exact .inl ((h.mem_moveTo ht k a).mpr (.inl ⟨hat, ha⟩))

/-- One thread has moved to list `r`, with a state that list admits. -/
theorem SchedInv.rebuild (h : SchedInv st m) (ht : t ∈ m q) (hl : Links st' m')
    (hmem : ∀ k a, a ∈ m' k ↔ a ≠ t ∧ a ∈ m k ∨ a = t ∧ k = r) (hlive : st'.live = st.live)
    (hst : ∀ a, a ≠ t → (st'.thr a).state = (st.thr a).state)
    (hs : (st'.thr t).state ∈ admits r) : SchedInv st' m' where
  toLinks := hl
  live a := by
    rw [hlive, h.live]
    constructor
    · rintro ⟨k, ha⟩
      by_cases hat : a = t
      · exact ⟨r, (hmem r a).mpr (.inr ⟨hat, rfl⟩)⟩
      · exact ⟨k, (hmem k a).mpr (.inl ⟨hat, ha⟩)⟩
    · rintro ⟨k, ha⟩
      rcases (hmem k a).mp ha with ⟨-, ha⟩ | ⟨rfl, -⟩
      · exact ⟨k, ha⟩
      · exact ⟨q, ht⟩
  live_nodup := hlive ▸ h.live_nodup
  state k a ha := by
    rcases (hmem k a).mp ha with ⟨hat, ha⟩ | ⟨rfl, rfl⟩
    · rw [hst a hat]
      exact h.state k a ha
    · exact hs

/-- A write that touches no links and leaves the states admissible. -/
theorem SchedInv.setThr (h : SchedInv st m) {c : AA64Thread} (hn : c.next = (st.thr t).next)
    (hp : c.prev = (st.thr t).prev) (hs : ∀ q, t ∈ m q → c.state ∈ admits q) :
    SchedInv (st.setThr t c) m where
  toLinks := h.toLinks.setThr hn hp
  live := h.live
  live_nodup := h.live_nodup
  state q a ha := by
    by_cases hat : a = t
    · subst hat
      simpa using hs q ha
    · simpa [hat] using h.state q a ha

/-- Neither the lists nor the states depend on which thread runs. -/
theorem SchedInv.congr (h : SchedInv st m) (hthr : st'.thr = st.thr) (hl : st'.lists = st.lists)
    (hlive : st'.live = st.live) : SchedInv st' m where
  toLinks := h.toLinks.congr (fun _ _ => by simp [hthr]) hl
  live := by rw [hlive]; exact h.live
  live_nodup := by rw [hlive]; exact h.live_nodup
  state := by rw [hthr]; exact h.state

/-- A thread with new data, state `s` included, goes from list `q` to list `r`. -/
theorem SchedInv.move (h : SchedInv st m) (ht : t ∈ m q) {c : AA64Thread}
    (hn : c.next = (st.thr t).next) (hp : c.prev = (st.thr t).prev) (hs : c.state ∈ admits r) :
    SchedInv (schedLink r (schedUnlink q (st.setThr t c) t) t) (moveTo m t q r) := by
  have hset := h.toLinks.setThr hn hp
  have hdata := (SameData.schedUnlink q (st.setThr t c) t).trans (.schedLink r _ t)
  refine h.rebuild ht ((hset.unlink ht).link (h.ne_zero ht) (hset.not_mem_erase ht))
    (h.toLinks.mem_moveTo ht) hdata.live (fun a hat => ?_) ?_
  · rw [hdata.state]
    simp [hat]
  · rw [hdata.state]
    simpa using hs

/-! ## The operations -/

theorem SchedInv.block (h : SchedInv st m) (ht : t ∈ m .ready) :
    SchedInv (auBlockThread st t) (moveTo m t .ready .blocked) :=
  h.move ht rfl rfl (by simp [admits])

theorem SchedInv.sleep (h : SchedInv st m) (ht : t ∈ m .ready) (ms now : UInt64) :
    SchedInv (auSleepThread st t ms now) (moveTo m t .ready .sleep) :=
  h.move ht rfl rfl (by simp [admits])

/-- The state a woken thread gets. -/
def wokenState (s : ThreadState) : ThreadState := if s ≠ .leftInKernel then .ready else s

theorem wokenState_ready (s : ThreadState) : wokenState s ∈ admits .ready := by
  unfold wokenState
  split_ifs with h
  · simp [admits]
  · simp [admits, not_not.mp h]

theorem setState_woken (st : State) (t : ℕ) :
    (if (st.thr t).state ≠ .leftInKernel then st.setState t .ready else st) =
      st.setState t (wokenState (st.thr t).state) := by
  unfold wokenState
  split_ifs
  · rfl
  · simp [State.setState, State.setThr]

/-- A thread that may be unblocked: it is not in the trash, and asleep only inside the kernel. -/
def CanUnblock (st : State) (t : ℕ) : Prop :=
  t ∈ st.members .ready ∨ t ∈ st.members .blocked ∨
    t ∈ st.members .sleep ∧ (st.thr t).state = .leftInKernel

instance (st : State) : DecidablePred (CanUnblock st) := fun _ =>
  inferInstanceAs (Decidable (_ ∨ _ ∨ _ ∧ _))

theorem SchedInv.unblock (h : SchedInv st m) (hc : CanUnblock st t) :
    t ∈ m .blocked ∧ SchedInv (auUnblockThread st t) (moveTo m t .blocked .ready) ∨
      t ∉ m .blocked ∧ SchedInv (auUnblockThread st t) m := by
  have hmem : (st.setState t (wokenState (st.thr t).state)).members .blocked = m .blocked :=
    (h.toLinks.setState t _).members_eq (h.length_le .blocked)
  unfold auUnblockThread
  rw [setState_woken]
  dsimp only
  rw [hmem]
  split_ifs with hb
  · exact .inl ⟨hb, h.move hb rfl rfl (wokenState_ready _)⟩
  · refine .inr ⟨hb, h.setThr rfl rfl fun q hq => ?_⟩
    unfold CanUnblock at hc
    rw [h.members_eq, h.members_eq, h.members_eq] at hc
    rcases hc with hr | hr | ⟨hr, hs⟩
    · rw [h.unique q .ready t hq hr]
      exact wokenState_ready _
    · exact absurd hr hb
    · rw [h.unique q .sleep t hq hr]
      simp [wokenState, hs, admits]

theorem SchedInv.makeReady (h : SchedInv st m) (ht : t ∈ st.live) (X : ℕ → Prop) :
    ∃ m', SchedInv (auThreadMakeReady st t) m' ∧ Kept X m m' := by
  obtain ⟨q, hq⟩ := (h.live t).mp ht
  unfold auThreadMakeReady
  split_ifs with hs hb
  · have hqs := (h.queue_of hq).1 hs
    subst hqs
    -- the state is written after the move
    have hset : Links (st.setThr t { st.thr t with sleepQuanta := 0 }) m :=
      h.toLinks.setThr rfl rfl
    have hl := ((hset.unlink hq).link (q := .ready) (h.ne_zero hq) (hset.not_mem_erase hq))
    have hdata := (SameData.schedUnlink .sleep (st.setThr t { st.thr t with sleepQuanta := 0 })
      t).trans (.schedLink .ready _ t)
    refine ⟨moveTo m t .sleep .ready, h.rebuild hq (hl.setThr rfl rfl) (h.toLinks.mem_moveTo hq)
      hdata.live (fun a hat => ?_) (by simp [State.setState, admits]), h.toLinks.kept_ready hq X⟩
    simp only [State.setState, setThr_thr, hat, if_false]
    rw [hdata.state]
    simp [hat]
  · have hqb := (h.queue_of hq).2.1 hb
    subst hqb
    have hc : CanUnblock st t := .inr (.inl (by rw [h.members_eq]; exact hq))
    rcases h.unblock hc with ⟨hb, h'⟩ | ⟨-, h'⟩
    · exact ⟨_, h', h.toLinks.kept_ready hb X⟩
    · exact ⟨_, h', .refl X m⟩
  · exact ⟨m, h, .refl X m⟩

/-- A move whose state is written between the two list operations. -/
theorem SchedInv.wakeMove (h : SchedInv st m) (hq : t ∈ m q) :
    SchedInv (schedLink .ready ((schedUnlink q st t).setState t
      (wokenState ((schedUnlink q st t).thr t).state)) t) (moveTo m t q .ready) := by
  have hu := h.toLinks.unlink hq
  have hset : Links ((schedUnlink q st t).setState t
      (wokenState ((schedUnlink q st t).thr t).state)) _ := hu.setThr rfl rfl
  have hdata := SameData.schedUnlink q st t
  have hdata' := SameData.schedLink .ready ((schedUnlink q st t).setState t
      (wokenState ((schedUnlink q st t).thr t).state)) t
  refine h.rebuild hq (hset.link (h.ne_zero hq) (h.toLinks.not_mem_erase hq))
    (h.toLinks.mem_moveTo hq) (hdata'.live.trans hdata.live) (fun a hat => ?_) ?_
  · rw [hdata'.state]
    simp only [State.setState, setThr_thr, hat, if_false]
    exact hdata.state a
  · rw [hdata'.state]
    simpa [State.setState] using wokenState_ready _

theorem SchedInv.wakePoller (h : SchedInv st m) (t : ℕ) (X : ℕ → Prop) :
    ∃ m', SchedInv (auThreadWakePoller st t) m' ∧ Kept X m m' := by
  unfold auThreadWakePoller
  dsimp only
  rw [h.members_eq, h.members_eq, setState_woken, setState_woken]
  split_ifs with h0 hb hs
  · exact ⟨m, h, .refl X m⟩
  · exact ⟨_, h.wakeMove hb, h.toLinks.kept_ready hb X⟩
  · have hset : SchedInv (st.setThr t { st.thr t with sleepQuanta := 0 }) m :=
      h.setThr rfl rfl fun q hq => h.state q t hq
    exact ⟨_, hset.wakeMove hs, h.toLinks.kept_ready hs X⟩
  · exact ⟨m, h, .refl X m⟩

/-! ## The loops -/

/-- The rule for a walk that saves the next thread: each turn keeps the lists and the list it
walks over, but for the thread at hand, and takes `P` from what was left to what is left. -/
theorem SchedInv.forEachSaved_rule {f : State → ℕ → State} {P : State → List ℕ → Prop}
    (hf : ∀ {st m t post}, SchedInv st m → t ∈ m q → P st (t :: post) →
      ∃ m', SchedInv (f st t) m' ∧ (m' q = m q ∨ m' q = (m q).erase t) ∧ P (f st t) post)
    (pre : List ℕ) {post : List ℕ} {n : ℕ} (h : SchedInv st m) (hm : m q = pre ++ post)
    (hn : post.length ≤ n) (hP : P st post) :
    ∃ m', SchedInv (forEachSaved f n st (post.headD 0)) m' ∧
      P (forEachSaved f n st (post.headD 0)) [] := by
  induction post generalizing st m pre n with
  | nil =>
    refine ⟨m, ?_⟩
    cases n
    · exact ⟨h, hP⟩
    · simpa [Sched.forEachSaved] using And.intro h hP
  | cons t post ih =>
    cases n with
    | zero => simp at hn
    | succ n =>
      have ht : t ∈ m q := by simp [hm]
      obtain ⟨m', h', hq, hP'⟩ := hf h ht hP
      have hnext : (st.thr t).next = post.headD 0 := by
        have hl := h.linked q
        rw [hm] at hl
        exact hl.at_split.1
      have hstep : Sched.forEachSaved f (n + 1) st ((t :: post).headD 0) =
          Sched.forEachSaved f n (f st t) (post.headD 0) := by
        rw [← hnext]
        exact if_neg (h.ne_zero ht)
      rw [hstep]
      have hn' := Nat.le_of_succ_le_succ hn
      rcases hq with hq | hq
      · exact ih (pre ++ [t]) h' (by simp [hq, hm]) hn' hP'
      · refine ih pre h' ?_ hn' hP'
        have hpre : t ∉ pre := by
          have hnd := h.nodup q
          rw [hm] at hnd
          exact fun hp => (List.nodup_append.mp hnd).2.2 t hp t (by simp) rfl
        rw [hq, hm, List.erase_append_right _ hpre, List.erase_cons_head]

/-- The walk over a whole list keeps the lists if each turn does. -/
theorem SchedInv.forEachSaved {f : State → ℕ → State}
    (hf : ∀ {st m t}, SchedInv st m → t ∈ m q →
      ∃ m', SchedInv (f st t) m' ∧ (m' q = m q ∨ m' q = (m q).erase t) ∧ Kept X m m')
    (h : SchedInv st m) :
    ∃ m', SchedInv (forEachSaved f st.live.length st (st.lists q).head) m' ∧ Kept X m m' := by
  rw [(h.linked q).head_eq]
  obtain ⟨m', h', hkept⟩ := SchedInv.forEachSaved_rule (P := fun st _ => Kept X m st.members)
    (fun {st' m₁ _ _} h₁ ht hP => by
      obtain ⟨m₂, h₂, hq, hkept⟩ := hf h₁ ht
      rw [funext h₁.members_eq] at hP
      rw [funext h₂.members_eq]
      exact ⟨m₂, h₂, hq, hP.trans hkept⟩) [] h rfl (h.length_le q)
    (by rw [funext h.members_eq]; exact .refl X m)
  rw [funext h'.members_eq] at hkept
  exact ⟨m', h', hkept⟩

theorem moveTo_self (hqr : q ≠ r) : moveTo m t q r q = (m q).erase t := by
  simp [moveTo, Function.update_of_ne hqr]

/-- The sleeper has no quantum left, or its time has come. -/
def Due (now : UInt64) (c : AA64Thread) : Prop := c.sleepQuanta = 0 ∨ now ≥ c.sleep_until_us

instance (now : UInt64) (c : AA64Thread) : Decidable (Due now c) :=
  inferInstanceAs (Decidable (_ ∨ _))

/-- A turn moves the sleepers that are due and leaves the others. -/
theorem wakeSleeper_eq (now : UInt64) (st : State) (t : ℕ) :
    wakeSleeper now st t = if Due now (st.thr t) then
      schedLink .ready (schedUnlink .sleep (st.setThr t { st.thr t with
        sleepQuanta := 0, state := wokenState (st.thr t).state }) t) t else st := by
  unfold Sched.wakeSleeper
  simp only [setState_woken]
  by_cases h0 : (st.thr t).sleepQuanta = 0
  · have hcond : ¬ ((st.thr t).sleepQuanta > 0 ∧ now ≥ (st.thr t).sleep_until_us) := by
      rw [h0]
      exact fun hc => absurd hc.1 (by decide)
    have hdue : Due now (st.thr t) := .inl h0
    have hsame : { st.thr t with sleepQuanta := 0, state := wokenState (st.thr t).state } =
        { st.thr t with state := wokenState (st.thr t).state } := by rw [← h0]
    rw [if_pos hdue, hsame]
    simp only [hcond, if_false]
    exact if_pos h0
  · have hpos : (st.thr t).sleepQuanta > 0 := UInt64.pos_iff_ne_zero.mpr h0
    by_cases hnow : now ≥ (st.thr t).sleep_until_us
    · have hdue : Due now (st.thr t) := .inr hnow
      simp [hpos, hnow, hdue, State.setState, State.setThr]
    · have hdue : ¬ Due now (st.thr t) := not_or.mpr ⟨h0, hnow⟩
      simp only [hnow, hdue, h0, and_false, if_false]

theorem SchedInv.wakeSleeper (h : SchedInv st m) (ht : t ∈ m .sleep) (now : UInt64)
    (X : ℕ → Prop) : ∃ m', SchedInv (wakeSleeper now st t) m' ∧
      (m' .sleep = m .sleep ∨ m' .sleep = (m .sleep).erase t) ∧ Kept X m m' := by
  rw [wakeSleeper_eq]
  split_ifs
  · exact ⟨_, h.move ht rfl rfl (wokenState_ready _), .inr (moveTo_self (by simp)),
      h.toLinks.kept_ready ht X⟩
  · exact ⟨m, h, .inl rfl, .refl X m⟩

theorem SchedInv.handleSleepThreads (h : SchedInv st m) (now : UInt64) (X : ℕ → Prop) :
    ∃ m', SchedInv (auHandleSleepThreads st now) m' ∧ Kept X m m' := by
  unfold auHandleSleepThreads
  exact SchedInv.forEachSaved (fun h ht => h.wakeSleeper ht now X) h

theorem SchedInv.releaseEDF (h : SchedInv st m) (ht : t ∈ m .blocked) (now : UInt64)
    (X : ℕ → Prop) : ∃ m', SchedInv (releaseEDF now st t) m' ∧
      (m' .blocked = m .blocked ∨ m' .blocked = (m .blocked).erase t) ∧ Kept X m m' := by
  unfold Sched.releaseEDF
  split_ifs
  · have h' : SchedInv (st.setThr t { st.thr t with edf_waiting := false }) m :=
      h.setThr rfl rfl fun q hq => h.state q t hq
    rcases h'.unblock (.inr (.inl (by rw [h'.members_eq]; exact ht))) with ⟨-, h''⟩ | ⟨hn, -⟩
    · exact ⟨_, h'', .inr (moveTo_self (by simp)), h.toLinks.kept_ready ht X⟩
    · exact absurd ht hn
  · exact ⟨m, h, .inl rfl, .refl X m⟩

theorem SchedInv.edfHandleReleases (h : SchedInv st m) (now : UInt64) (X : ℕ → Prop) :
    ∃ m', SchedInv (auEDFHandleReleases st now) m' ∧ Kept X m m' := by
  unfold auEDFHandleReleases
  exact SchedInv.forEachSaved (fun h ht => h.releaseEDF ht now X) h

/-- The waiters the loop of `AuThreadAwakeWaiters` gets to. -/
def awakened (found : ℕ → Bool) (ws : List ℕ) : List ℕ :=
  (ws.filter (· ≠ 0)).takeWhile found

theorem auUnblockThread_state (st : State) (t a : ℕ) :
    ((auUnblockThread st t).thr a).state =
      if a = t then wokenState (st.thr a).state else (st.thr a).state := by
  unfold auUnblockThread
  rw [setState_woken]
  have hset : ((st.setState t (wokenState (st.thr t).state)).thr a).state =
      if a = t then wokenState (st.thr a).state else (st.thr a).state := by
    by_cases hat : a = t
    · subst hat
      simp [State.setState]
    · simp [State.setState, hat]
  dsimp only
  split_ifs at hset ⊢
  all_goals
    first
    | exact hset
    | rw [((SameData.schedUnlink .blocked _ t).trans (.schedLink .ready _ t)).state, hset]

/-- Unblocking one thread leaves it possible to unblock another. -/
theorem SchedInv.canUnblock_unblock (h : SchedInv st m) {w : ℕ} (hc : CanUnblock st t)
    (hw : CanUnblock st w) : CanUnblock (auUnblockThread st t) w := by
  have hstate := auUnblockThread_state st t w
  rcases h.unblock hc with ⟨hb, h'⟩ | ⟨hb, h'⟩ <;> unfold CanUnblock at hw ⊢ <;>
    rw [h.members_eq, h.members_eq, h.members_eq] at hw <;>
    rw [h'.members_eq, h'.members_eq, h'.members_eq]
  · simp only [h.mem_moveTo hb]
    by_cases hwt : w = t
    · simp [hwt]
    · rw [hstate, if_neg hwt]
      simpa [hwt] using hw
  · by_cases hwt : w = t
    · subst hwt
      rcases hw with hw | hw | ⟨hw, hs⟩
      · exact .inl hw
      · exact absurd hw hb
      · exact .inr (.inr ⟨hw, by rw [hstate, if_pos rfl, hs]; rfl⟩)
    · rwa [hstate, if_neg hwt]

theorem SchedInv.awakeLoop (found : ℕ → Bool) (ws : List ℕ) (h : SchedInv st m)
    (hw : ∀ w ∈ awakened found ws, CanUnblock st w) (X : ℕ → Prop) :
    ∃ m', SchedInv (awakeLoop found ws st).2 m' ∧ Kept X m m' := by
  induction ws generalizing st m with
  | nil => exact ⟨m, h, .refl X m⟩
  | cons w ws ih =>
    unfold Sched.awakeLoop
    split_ifs with h0 hfound
    · exact ih h (by simpa [awakened, h0] using hw)
    · have hc : CanUnblock st w := hw w (by simp [awakened, h0, hfound])
      have hrest : ∀ x ∈ awakened found ws, CanUnblock (auUnblockThread st w) x := by
        intro x hx
        exact h.canUnblock_unblock hc (hw x (by simp [awakened, h0, hfound] at hx ⊢; exact .inr hx))
      rcases h.unblock hc with ⟨hb, h'⟩ | ⟨-, h'⟩
      · obtain ⟨m', hm', hkept⟩ := ih h' hrest
        exact ⟨m', hm', (h.toLinks.kept_ready hb X).trans hkept⟩
      · exact ih h' hrest
    · exact ⟨m, h, .refl X m⟩

theorem SchedInv.awakeWaiters (h : SchedInv st m) (found : ℕ → Bool)
    (hw : ∀ w ∈ awakened found (st.thr t).waitlist, CanUnblock st w) (X : ℕ → Prop) :
    ∃ m', SchedInv (auThreadAwakeWaiters found st t) m' ∧ Kept X m m' := by
  obtain ⟨m', h', hkept⟩ := h.awakeLoop found _ hw X
  exact ⟨m', h'.setThr rfl rfl fun q hq => h'.state q t hq, hkept⟩

/-! ## Ending -/

theorem SameData.unlinkIfFound (q : Queue) (st : State) (t : ℕ) :
    SameData st (unlinkIfFound q st t) := by
  unfold Sched.unlinkIfFound
  split_ifs
  · exact .schedUnlink q st t
  · exact .refl st

/-- The search leaves the thread out of the list it looked in. -/
theorem Links.unlinkIfFound (h : Links st m) (hlen : ∀ k, (m k).length ≤ st.live.length)
    (q : Queue) (t : ℕ) : ∃ m', Links (unlinkIfFound q st t) m' ∧
      (∀ k, (m' k).length ≤ (unlinkIfFound q st t).live.length) ∧
      ∀ k a, a ∈ m' k ↔ a ∈ m k ∧ (a = t → k ≠ q) := by
  rw [(SameData.unlinkIfFound q st t).live]
  unfold Sched.unlinkIfFound
  rw [h.members_eq (hlen q)]
  split_ifs with ht
  · refine ⟨_, h.unlink ht, fun k => ?_, fun k a => ?_⟩
    · by_cases hk : k = q
      · subst hk
        rw [Function.update_self]
        exact Nat.le_trans List.length_erase_le (hlen k)
      · rw [Function.update_of_ne hk]
        exact hlen k
    · rw [h.mem_erase ht]
      constructor
      · exact fun ⟨hat, ha⟩ => ⟨ha, fun he => absurd he hat⟩
      · exact fun ⟨ha, hk⟩ => ⟨fun he => hk he (h.unique k q a ha (he ▸ ht)), ha⟩
  · refine ⟨m, h, hlen, fun k a => ⟨fun ha => ⟨ha, ?_⟩, And.left⟩⟩
    rintro rfl rfl
    exact ht ha

theorem SchedInv.edfRemove (h : SchedInv st m) (t : ℕ) : SchedInv (auEDFRemove st t) m := by
  unfold auEDFRemove
  split_ifs
  · exact h.setThr rfl rfl fun q hq => h.state q t hq
  · exact h

theorem auEDFRemove_state (st : State) (t a : ℕ) :
    ((auEDFRemove st t).thr a).state = (st.thr a).state := by
  unfold auEDFRemove
  split_ifs
  · by_cases hat : a = t <;> simp [hat]
  · rfl

theorem auEDFRemove_live (st : State) (t : ℕ) : (auEDFRemove st t).live = st.live := by
  unfold auEDFRemove
  split_ifs <;> rfl

theorem SchedInv.moveToTrash (h : SchedInv st m) (ht : t = 0 ∨ t ∈ st.live) :
    ∃ m', SchedInv (auThreadMoveToTrash st t) m' := by
  unfold auThreadMoveToTrash
  split_ifs with hk
  · exact ⟨m, h⟩
  obtain ⟨h0, hk⟩ := not_or.mp hk
  obtain ⟨q, hq⟩ := (h.live t).mp (ht.resolve_left h0)
  have hqt : ∀ k, t ∈ m k → k ≠ .trash := by
    rintro k hk' rfl
    exact hk ((h.queue_of hk').2.2.2.mpr rfl)
  have hedf := h.edfRemove t
  -- the three searches, with the thread already marked
  obtain ⟨m₁, hl₁, hlen₁, hm₁⟩ := (hedf.toLinks.setState t .killable).unlinkIfFound
    (fun k => hedf.length_le k) .ready t
  obtain ⟨m₂, hl₂, hlen₂, hm₂⟩ := hl₁.unlinkIfFound hlen₁ .blocked t
  obtain ⟨m₃, hl₃, -, hm₃⟩ := hl₂.unlinkIfFound hlen₂ .sleep t
  have hdata := (((SameData.unlinkIfFound .ready ((auEDFRemove st t).setState t .killable) t).trans
    (.unlinkIfFound .blocked _ t)).trans (.unlinkIfFound .sleep _ t)).trans (.schedLink .trash _ t)
  have hmem : ∀ k a, a ∈ m₃ k ↔ a ≠ t ∧ a ∈ m k := by
    intro k a
    rw [hm₃, hm₂, hm₁]
    constructor
    · rintro ⟨⟨⟨ha, h1⟩, h2⟩, h3⟩
      refine ⟨fun hat => ?_, ha⟩
      have h4 := hqt k (hat ▸ ha)
      cases k <;> simp_all
    · rintro ⟨hat, ha⟩
      simp [hat, ha]
  refine ⟨_, h.rebuild hq (hl₃.link h0 fun k hk' => ((hmem k t).mp hk').1 rfl)
    (fun k a => by rw [mem_append_update, hmem]) (hdata.live.trans (auEDFRemove_live st t))
    (fun a hat => ?_) ?_⟩
  · rw [hdata.state]
    simp only [State.setState, setThr_thr, hat, if_false]
    exact auEDFRemove_state st t a
  · rw [hdata.state]
    simp [State.setState, admits]

theorem SchedInv.clean (h : SchedInv st m) (ht : t ∈ m .trash) :
    SchedInv (auCleanThread st t) (Function.update m .trash ((m .trash).erase t)) := by
  have hdata := SameData.schedUnlink .trash st t
  refine ⟨(h.toLinks.unlink ht).congr (fun _ _ _ => ⟨rfl, rfl⟩) rfl, fun a => ?_, ?_,
    fun k a ha => ?_⟩
  · simp only [auCleanThread, hdata.live, h.toLinks.mem_erase ht]
    rw [h.live_nodup.mem_erase_iff, h.live]
    simp
  · simp only [auCleanThread, hdata.live]
    exact h.live_nodup.erase t
  · simp only [auCleanThread]
    rw [hdata.state]
    exact h.state k a ((h.toLinks.mem_erase ht k a).mp ha).2

theorem SchedInv.create (h : SchedInv st m) (h0 : t ≠ 0) (ht : t ∉ st.live) (X : ℕ → Prop) :
    ∃ m', SchedInv (auCreateKthread st t) m' ∧ Kept X m m' := by
  have hno : ∀ k, t ∉ m k := fun k hk => ht ((h.live t).mpr ⟨k, hk⟩)
  have hne : ∀ {k a}, a ∈ m k → a ≠ t := fun ha hat => hno _ (hat ▸ ha)
  have hl : Links { st.setThr t { thread_id := st.thread_id } with
      live := t :: st.live, thread_id := st.thread_id + 1 } m :=
    h.toLinks.congr (fun k a ha => by simp [hne ha]) rfl
  have hdata := SameData.schedLink .ready { st.setThr t { thread_id := st.thread_id } with
      live := t :: st.live, thread_id := st.thread_id + 1 } t
  refine ⟨_, ⟨hl.link h0 hno, fun a => ?_, ?_, fun k a ha => ?_⟩,
    fun a _ k ha => .inl ((mem_append_update m .ready k a).mpr (.inl ha))⟩
  · simp only [auCreateKthread, auThreadInsert, hdata.live, mem_append_update, List.mem_cons,
      h.live]
    constructor
    · rintro (hat | ⟨k, ha⟩)
      · exact ⟨.ready, .inr ⟨hat, rfl⟩⟩
      · exact ⟨k, .inl ha⟩
    · rintro ⟨k, ha | ⟨hat, -⟩⟩
      · exact .inr ⟨k, ha⟩
      · exact .inl hat
  · simp only [auCreateKthread, auThreadInsert, hdata.live]
    exact List.nodup_cons.mpr ⟨ht, h.live_nodup⟩
  · simp only [auCreateKthread, auThreadInsert]
    rw [hdata.state]
    rcases (mem_append_update m .ready k a).mp ha with ha | ⟨rfl, rfl⟩
    · simpa [hne ha] using h.state k a ha
    · simp [admits]

/-- A change of state within what the thread's list admits. -/
theorem SchedInv.setState (h : SchedInv st m) {s : ThreadState}
    (hs : ∀ q, t ∈ m q → s ∈ admits q) : SchedInv (st.setState t s) m := h.setThr rfl rfl hs

theorem SchedInv.preempt (h : SchedInv st m) : SchedInv (preemptThread st) m := by
  unfold preemptThread
  split_ifs with hs
  · refine h.setState fun q hq => ?_
    rw [(h.queue_of hq).2.2.1 hs]
    simp [admits]
  · exact h

theorem SchedInv.scheduleNext (h : SchedInv st m)
    (hc : (st.thr st.current_thread).state ≠ .killable) : SchedInv (auScheduleNext st) m := by
  have h' : SchedInv (st.setState st.current_thread .leftInKernel) m := by
    refine h.setState fun q hq => ?_
    have hk := mt (h.queue_of hq).2.2.2.mpr hc
    cases q <;> simp [admits] at hk ⊢
  exact h'.congr rfl rfl rfl

theorem auEDFPickNext_mem (h : SchedInv st m) (ht : auEDFPickNext st = some t) : t ∈ m .ready := by
  rw [← h.members_eq]
  have key : ∀ (f : Option ℕ → ℕ → Option ℕ) (l : List ℕ) (best : Option ℕ),
      (∀ b a x, f b a = some x → x = a ∨ b = some x) →
      ∀ x, l.foldl f best = some x → x ∈ l ∨ best = some x := by
    intro f l
    induction l with
    | nil => exact fun best _ x hx => .inr hx
    | cons a l ih =>
      intro best hf x hx
      rcases ih (f best a) hf x hx with hx | hx
      · exact .inl (by simp [hx])
      · rcases hf best a x hx with rfl | hx
        · exact .inl (by simp)
        · exact .inr hx
  refine (key _ _ none (fun b a x hx => ?_) t ht).resolve_right (by simp)
  split at hx
  · exact .inr hx
  · split at hx
    · exact .inl (Option.some.inj hx).symm
    · split_ifs at hx
      · exact .inl (Option.some.inj hx).symm
      · exact .inr hx

/-- The round-robin walk stays in the ready list. -/
theorem nextLoop_mem (h : SchedInv st m) {start n c : ℕ} (hc : c = 0 ∨ c ∈ m .ready)
    (ht : nextLoop st start n c = some t) : t ∈ m .ready := by
  induction n generalizing c with
  | zero => cases ht
  | succ n ih =>
    unfold nextLoop at ht
    split_ifs at ht with h0 hr hs
    · exact Option.some.inj ht ▸ hc.resolve_left h0
    · refine ih ?_ ht
      unfold nextCursor
      split_ifs with hn
      · exact ((h.toLinks.neighbours (hc.resolve_left h0)).1).imp id And.left
      · rw [(h.linked .ready).head_eq]
        cases m .ready <;> simp

theorem SchedInv.switch (h : SchedInv st m)
    (hc : st.current_thread ∈ m .ready ∨ (st.thr st.current_thread).next = 0)
    (hi : st.idle_thr ∈ m .ready) : SchedInv (switchThread st) m := by
  have hstart : nextStart st = 0 ∨ nextStart st ∈ m .ready := by
    unfold nextStart
    split_ifs with hs
    · rcases hc with hc | hc
      · exact ((h.toLinks.neighbours hc).1).imp id And.left
      · exact absurd hc hs.2
    · rw [(h.linked .ready).head_eq]
      cases m .ready <;> simp
  have hnext : nextThread st ∈ m .ready := by
    unfold nextThread
    split
    · next t ht => exact auEDFPickNext_mem h ht
    · cases hl : nextLoop st (nextStart st) schedValidateSteps (nextStart st) with
      | none => exact hi
      | some t => exact nextLoop_mem h hstart hl
  have hready : ∀ q, nextThread st ∈ m q → q = .ready := fun q hq => h.unique q _ _ hq hnext
  have h' : SchedInv (aa64NextThread st) m := h.congr rfl rfl rfl
  unfold switchThread
  dsimp only
  split_ifs
  · exact h'.setState fun q hq => by rw [hready q hq]; simp [admits]
  · exact h'.setState fun q hq => by rw [hready q hq]; simp [admits]
  · exact h'

/-- What each function relies on its caller for. -/
def SchedSafe (st : State) : Act → Prop
  | .block t => t ∈ st.members .ready
  | .sleep t _ _ => t ∈ st.members .ready
  | .unblock t => CanUnblock st t
  | .makeReady t => t ∈ st.live
  | .awakeWaiters found t => ∀ w ∈ awakened found (st.thr t).waitlist, CanUnblock st w
  | .waitForTermination _ _ => st.current_thread ∈ st.members .ready
  | .moveToTrash t => t = 0 ∨ t ∈ st.live
  | .exitSubThread found threads t id =>
    ∀ x ∈ threads.find? fun x => x ≠ 0 ∧ (st.thr x).thread_id = id ∧ x = t,
      x ∈ st.members .trash ∧ ∀ w ∈ awakened found (st.thr x).waitlist, CanUnblock st w
  | .clean t => t ∈ st.members .trash
  | .switch => (st.current_thread ∈ st.members .ready ∨
      (st.thr st.current_thread).next = 0) ∧ st.idle_thr ∈ st.members .ready
  | .scheduleNext => (st.thr st.current_thread).state ≠ .killable
  | _ => True

instance (st : State) : DecidablePred (SchedSafe st) := fun act => by
  cases act <;> unfold SchedSafe <;> infer_instance

/-! ## Every operation keeps the lists -/

theorem auUnblockThread_live (st : State) (t : ℕ) : (auUnblockThread st t).live = st.live := by
  unfold auUnblockThread
  rw [setState_woken]
  dsimp only
  split_ifs
  · exact ((SameData.schedUnlink .blocked _ t).trans (.schedLink .ready _ t)).live
  · rfl

theorem awakeLoop_live (found : ℕ → Bool) (ws : List ℕ) (st : State) :
    (awakeLoop found ws st).2.live = st.live := by
  induction ws generalizing st with
  | nil => rfl
  | cons w ws ih =>
    unfold awakeLoop
    split_ifs
    · exact ih st
    · exact (ih _).trans (auUnblockThread_live st w)
    · rfl

theorem SchedInv.exitSubThread (h : SchedInv st m) (found : ℕ → Bool) (threads : List ℕ) (t id : ℕ)
    (hs : SchedSafe st (.exitSubThread found threads t id)) :
    ∃ m', SchedInv (auExitSubThread found st threads t id) m' := by
  unfold auExitSubThread
  split
  · exact ⟨m, h⟩
  next x hx =>
  obtain ⟨hx', hw⟩ := hs x hx
  rw [h.members_eq] at hx'
  have hk : (st.thr x).state = .killable := (h.queue_of hx').2.2.2.mpr rfl
  -- the mark is there already
  have hst : st.setState x .killable = st := by
    simp [State.setState, State.setThr, ← hk]
  rw [hst]
  obtain ⟨m', h', -⟩ := h.awakeWaiters found hw fun _ => True
  refine h'.moveToTrash (.inr ?_)
  have hlive : (auThreadAwakeWaiters found st x).live = st.live := awakeLoop_live found _ st
  rw [hlive]
  exact (h.live x).mpr ⟨.trash, hx'⟩

theorem SchedInv.waitForTermination (h : SchedInv st m) (id : ℕ) (found : Bool)
    (hs : st.current_thread ∈ st.members .ready) :
    ∃ m', SchedInv (auThreadWaitForTermination st id found) m' ∧
      Kept (· = st.current_thread) m m' := by
  rw [h.members_eq] at hs
  unfold auThreadWaitForTermination
  split
  · exact ⟨m, h, .refl _ m⟩
  · next d _ =>
    split_ifs
    · have h' : SchedInv (st.setThr d { st.thr d with
          waitlist := (st.thr d).waitlist ++ [st.current_thread] }) m :=
        h.setThr rfl rfl fun q hq => h.state q d hq
      exact ⟨moveTo m st.current_thread .ready .blocked, h'.block hs, h.toLinks.kept_moveTo hs⟩
    · exact ⟨m, h, .refl _ m⟩

/-- The threads an operation may take out of their list, other than to the ready list. -/
def Act.Takes (st : State) : Act → ℕ → Prop
  | .block t, a | .sleep t _ _, a => a = t
  | .waitForTermination _ _, a => a = st.current_thread
  | .moveToTrash _, _ | .exitSubThread _ _ _ _, _ | .clean _, _ => True
  | _, _ => False

instance (st : State) (act : Act) : DecidablePred (act.Takes st) := fun a => by
  cases act <;> unfold Act.Takes <;> infer_instance

theorem Kept.of_true (m m' : Queue → List ℕ) : Kept (fun _ => True) m m' :=
  fun _ hX => absurd trivial hX

/-- One step keeps the lists, and every thread it does not take in its list or ready. -/
theorem SchedInv.step_kept (h : SchedInv st m) {act : Act} (hs : SchedSafe st act) :
    ∃ m', SchedInv (step st act) m' ∧ Kept (act.Takes st) m m' := by
  cases act with
  | create t =>
    unfold Sched.step
    dsimp only
    split_ifs with ht
    · exact ⟨m, h, .refl _ m⟩
    · exact h.create (not_or.mp ht).1 (not_or.mp ht).2 _
  | block t =>
    have ht : t ∈ m .ready := h.members_eq .ready ▸ hs
    exact ⟨_, h.block ht, h.toLinks.kept_moveTo ht⟩
  | unblock t =>
    rcases h.unblock hs with ⟨hb, h'⟩ | ⟨-, h'⟩
    · exact ⟨_, h', h.toLinks.kept_ready hb _⟩
    · exact ⟨_, h', .refl _ m⟩
  | sleep t ms now =>
    have ht : t ∈ m .ready := h.members_eq .ready ▸ hs
    exact ⟨_, h.sleep ht ms now, h.toLinks.kept_moveTo ht⟩
  | makeReady t => exact h.makeReady hs _
  | wakePoller t => exact h.wakePoller t _
  | handleSleepThreads now => exact h.handleSleepThreads now _
  | edfHandleReleases now => exact h.edfHandleReleases now _
  | awakeWaiters found t => exact h.awakeWaiters found hs _
  | waitForTermination id found => exact h.waitForTermination id found hs
  | moveToTrash t =>
    obtain ⟨m', h'⟩ := h.moveToTrash hs
    exact ⟨m', h', .of_true m m'⟩
  | exitSubThread found threads t id =>
    obtain ⟨m', h'⟩ := h.exitSubThread found threads t id hs
    exact ⟨m', h', .of_true m m'⟩
  | clean t => exact ⟨_, h.clean (h.members_eq .trash ▸ hs), .of_true m _⟩
  | preempt => exact ⟨m, h.preempt, .refl _ m⟩
  | switch =>
    obtain ⟨hc, hi⟩ := hs
    rw [h.members_eq] at hc hi
    exact ⟨m, h.switch hc hi, .refl _ m⟩
  | scheduleNext => exact ⟨m, h.scheduleNext hs, .refl _ m⟩
  | setPoll t on => exact ⟨m, h.setThr rfl rfl fun q hq => h.state q t hq, .refl _ m⟩
  | setEDF t waiting release deadline =>
    exact ⟨m, h.setThr rfl rfl fun q hq => h.state q t hq, .refl _ m⟩

theorem SchedInv.step (h : SchedInv st m) {act : Act} (hs : SchedSafe st act) :
    ∃ m', SchedInv (step st act) m' := by
  obtain ⟨m', h', -⟩ := h.step_kept hs
  exact ⟨m', h'⟩

theorem SchedInv.init {idle : ℕ} (hi : idle ≠ 0) : ∃ m, SchedInv (State.init idle) m := by
  have h : SchedInv { thr := fun _ => {}, live := [], lists := fun _ => {},
                      current_thread := 0, idle_thr := idle, thread_id := 0 } fun _ => [] := by
    refine ⟨⟨fun _ => rfl, fun _ => rfl, fun _ => List.nodup_nil, ?_⟩, ?_, List.nodup_nil, ?_⟩ <;>
      simp
  obtain ⟨m, h', -⟩ := h.create hi (by simp) fun _ => False
  exact ⟨m, h'.congr rfl rfl rfl⟩

theorem validateLoop_eq {l : List ℕ} {n p a : ℕ}
    (hl : Linked 0 (fun a => (st.thr a).next) (fun a => (st.thr a).prev) p l a)
    (hs : ∀ t ∈ l, (st.thr t).state ∈ admits q) (hn : l.length ≤ n) :
    validateLoop st q n p a = some (l.getLastD p, l.length) := by
  induction l generalizing n p a with
  | nil =>
    have h0 : a = 0 := hl
    unfold validateLoop
    simp [h0]
  | cons b l ih =>
    obtain ⟨rfl, hb, hp, hl⟩ := hl
    cases n with
    | zero => simp at hn
    | succ n =>
      have hcond : ¬ ((st.thr a).prev ≠ p ∨ (st.thr a).state ∉ admits q) := by
        simpa [hp] using hs a (by simp)
      have ih := ih hl (fun t ht => hs t (by simp [ht])) (Nat.le_of_succ_le_succ hn)
      unfold validateLoop
      simp only [if_neg hb, if_neg hcond, ih, Option.map_some, List.getLastD_cons, List.length_cons]

theorem SchedInv.validateOne (h : SchedInv st m) (hlen : (m q).length ≤ schedValidateSteps) :
    schedValidateOne st q = some (m q).length := by
  unfold schedValidateOne
  rw [validateLoop_eq (h.linked q) (h.state q) hlen, h.last q]
  have hnext : ¬ ((m q).getLastD 0 ≠ (m q).getLastD 0 ∨
      ((m q).getLastD 0 ≠ 0 ∧ (st.thr ((m q).getLastD 0)).next ≠ 0)) := by
    rintro (hne | ⟨h0, hn⟩)
    · exact hne rfl
    · by_cases hm : m q = []
      · rw [hm] at h0
        exact h0 rfl
      · exact hn ((h.toLinks.ends (getLastD_mem hm)).2.mpr (h.last q))
  dsimp only
  rw [if_neg hnext]

theorem SchedInv.validate (h : SchedInv st m) (hlen : st.live.length ≤ schedValidateSteps)
    (hlive : st.live ≠ []) : auSchedValidateLists st = true := by
  have hone : ∀ q, schedValidateOne st q = some (m q).length :=
    fun q => h.validateOne (Nat.le_trans (h.length_le q) hlen)
  unfold auSchedValidateLists
  rw [hone, hone, hone, hone]
  obtain ⟨t, ht⟩ := List.exists_mem_of_ne_nil _ hlive
  obtain ⟨q, hq⟩ := (h.live t).mp ht
  have hpos : 0 < (m q).length := List.length_pos_of_mem hq
  simp only [decide_eq_true_eq]
  cases q <;> omega

/-- The lists hold exactly the live threads, each in one list that admits its state, and
hang together from head to last. -/
def SchedIntegrity (st : State) : Prop :=
  ∃ m : Queue → List ℕ,
    (∀ q, Linked 0 (fun a => (st.thr a).next) (fun a => (st.thr a).prev) 0 (m q)
      (st.lists q).head ∧ (st.lists q).last = (m q).getLastD 0 ∧ (m q).Nodup) ∧
    (∀ t ∈ st.live, ∃! q, t ∈ m q) ∧ (∀ q, ∀ t ∈ m q, t ∈ st.live) ∧
    ∀ q, ∀ t ∈ m q, (st.thr t).state ∈ admits q

theorem SchedInv.integrity (h : SchedInv st m) : SchedIntegrity st := by
  refine ⟨m, fun q => ⟨h.linked q, h.last q, h.nodup q⟩, fun t ht => ?_,
    fun q t ht => (h.live t).mpr ⟨q, ht⟩, h.state⟩
  obtain ⟨q, hq⟩ := (h.live t).mp ht
  exact ⟨q, hq, fun r hr => h.unique r q t hr hq⟩

/-- In a run whose functions are called as they rely on, the lists are intact in every
state, and `AuSchedValidateLists` finds them so while it can walk them all. -/
theorem exec_schedIntegrity (idle : ℕ) (acts : List Act) (hi : idle ≠ 0)
    (h : Respects SchedSafe step (State.init idle) acts) :
    SchedIntegrity (exec idle acts) ∧
      ((exec idle acts).live.length ≤ schedValidateSteps → (exec idle acts).live ≠ [] →
        auSchedValidateLists (exec idle acts) = true) := by
  obtain ⟨m, hm⟩ : ∃ m, SchedInv (exec idle acts) m :=
    h.invariant (I := fun st => ∃ m, SchedInv st m)
      (fun st act ⟨_, hI⟩ hok => hI.step hok) (SchedInv.init hi)
  exact ⟨hm.integrity, hm.validate⟩

/-- Two threads that sleep, block, wake and end beside the idle thread. -/
def orderlyRun : List Act :=
  [.create 2, .create 3, .setPoll 2 true, .block 2, .wakePoller 2, .switch,
    .waitForTermination 1 true, .scheduleNext, .sleep 2 5 10, .handleSleepThreads 20000, .moveToTrash 2,
    .awakeWaiters (fun _ => true) 2, .clean 2]

theorem exec_schedIntegrity_orderly : SchedIntegrity (exec 1 orderlyRun) ∧
    ((exec 1 orderlyRun).live.length ≤ schedValidateSteps → (exec 1 orderlyRun).live ≠ [] →
      auSchedValidateLists (exec 1 orderlyRun) = true) :=
  exec_schedIntegrity 1 orderlyRun (by decide) (by decide +kernel)

/-- A thread that ends through `AuExitSubThread`. -/
def exitRun : List Act := [.create 2, .exitSubThread (fun _ => true) [2] 2 1]

/-- The thread is left in the ready list as killable, and the reaper frees it there. -/
theorem not_exec_schedIntegrity :
    ¬ SchedIntegrity (exec 1 exitRun) ∧ auSchedValidateLists (exec 1 exitRun) = false ∧
      ¬ SchedIntegrity (exec 1 (exitRun ++ [.clean 2])) := by
  refine ⟨?_, by decide +kernel, ?_⟩
  · rintro ⟨m, hm, hlive, -, hs⟩
    obtain ⟨q, hq, -⟩ := hlive 2 (by decide +kernel)
    have hk : ((exec 1 exitRun).thr 2).state = .killable := by decide +kernel
    have hadm := hs q 2 hq
    rw [hk] at hadm
    have hqt : q = .trash := by cases q <;> simp [admits] at hadm ⊢
    have hl := (hm .trash).1
    have hhead : ((exec 1 exitRun).lists .trash).head = 0 := by decide +kernel
    rw [hhead] at hl
    rw [hqt, hl.eq_nil] at hq
    cases hq
  · rintro ⟨m, hm, -, hfreed, -⟩
    generalize hst : exec 1 (exitRun ++ [.clean 2]) = st at hm hfreed
    have hhead : (st.lists .ready).head = 1 := by subst hst; decide +kernel
    have hnext : (st.thr 1).next = 2 := by subst hst; decide +kernel
    have hlive : st.live = [1] := by subst hst; decide +kernel
    have hl := (hm .ready).1
    have hmem := hfreed .ready 2
    rw [hhead] at hl
    cases hr : m .ready with
    | nil =>
      rw [hr] at hl
      cases hl
    | cons a l =>
      rw [hr] at hl hmem
      obtain ⟨rfl, -, -, hl⟩ := hl
      dsimp only at hl
      rw [hnext] at hl
      cases l with
      | nil => cases hl
      | cons b l =>
        obtain ⟨rfl, -⟩ := hl
        have := hmem (by simp)
        rw [hlive] at this
        simp at this

end Xeneva.Sched
