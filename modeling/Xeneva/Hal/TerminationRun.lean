import Xeneva.Hal.TerminationServed

/-!
# Runs with waits
-/

namespace Xeneva.Termination
open Base

variable {s s' : State} {E : Target → Prop} {T : Target} {t p current : ℕ} {w : Wait}

/-- What every step preserves. -/
structure Inv (s : State) : Prop where
  core : Core (fun _ => False) s
  lists : Lists s
  found : ∀ t, (auThreadFindByID s t).isSome → t < s.thread_id
  mains_lt : ∀ p ∈ s.procs, ∀ t, (s.proc p).main_thread = some t → t < s.thread_id
  threads_lt : ∀ w ∈ s.waits, ∀ t, w.target = .thread t → t < s.thread_id
  procs_lt : ∀ w ∈ s.waits, ∀ p, w.target = .process p → p < s.pid
  pids : ∀ p ∈ s.procs, p < s.pid
  died : ∀ p ∈ s.procs, (s.proc p).died = true → ∀ t, (s.proc p).main_thread = some t →
    (s.thr t).state = .killable

theorem Inv.served (hi : Inv s) : Served s where
  once := hi.core.once
  gone := fun w hw hk => (hi.core.gone w hw hk).resolve_right fun h => h
  served := fun w hw hT ha => by
    by_contra hk
    have hmem : w ∈ s.pending w.target := mem_pending.mpr ⟨hw, rfl, hk⟩
    rw [hi.core.served w.target hT fun h => h] at hmem
    exact List.not_mem_nil hmem
  lists := hi.lists.thread
  count := hi.core.count
  busy := hi.core.busy

/-! ## Exits -/

/-- The exit is over: what it was about is gone and has no waiters. -/
theorem Core.close (hc : Core E s) (h : ∀ T, E T → s.Gone T ∧ s.pending T = []) :
    Core (fun _ => False) s :=
  { hc with
    gone := fun w hw hk => .inl ((hc.gone w hw hk).elim (fun h => h) fun he => (h _ he).1)
    served := fun T hT _ => by
      by_cases he : E T
      · exact (h T he).2
      · exact hc.served T hT he }

/-- What an exit leaves of the invariant, with the death of a process `p` to come. -/
theorem Inv.ofExiting (hi : Inv s) (h : Exiting E s s') (hc : Core (fun _ => False) s') :
    Inv s' where
  core := hc
  lists := h.lists
  found := fun t ht => h.frame.thread_id ▸ hi.found t (h.frame.found t ht)
  mains_lt := by
    rw [h.frame.procs, h.frame.thread_id]
    intro p hp t ht
    rw [h.frame.main] at ht
    exact hi.mains_lt p hp t ht
  threads_lt := by
    rw [h.frame.waits, h.frame.thread_id]
    exact hi.threads_lt
  procs_lt := by
    rw [h.frame.waits, h.frame.pid]
    exact hi.procs_lt
  pids := by
    rw [h.frame.procs, h.frame.pid]
    exact hi.pids
  died := by
    rw [h.frame.procs]
    intro p hp hd t ht
    rw [h.frame.died] at hd
    rw [h.frame.main] at ht
    exact h.frame.killable t (hi.died p hp hd t ht)

theorem auThreadMoveToTrash_setProc (s : State) (p t : ℕ) (x : AuProcess) :
    auThreadMoveToTrash (s.setProc p x) t = (auThreadMoveToTrash s t).setProc p x := by
  unfold auThreadMoveToTrash
  dsimp only
  have h : (s.setProc p x).thr t = s.thr t := rfl
  rw [h]
  split_ifs <;> rfl

theorem auThreadMoveToTrash_proc (s : State) (t : ℕ) : (auThreadMoveToTrash s t).proc = s.proc := by
  unfold auThreadMoveToTrash
  dsimp only
  split_ifs <;> rfl

theorem auThreadMoveToTrash_thr (s : State) {t t' : ℕ} (h : t' ≠ t) :
    (auThreadMoveToTrash s t).thr t' = s.thr t' := by
  unfold auThreadMoveToTrash
  dsimp only
  split_ifs
  · rfl
  · exact Function.update_of_ne h ..

theorem stopThreads_current (main : Option ℕ) (ts : List ℕ) :
    ∀ s, (stopThreads current main ts s).thr current = s.thr current := by
  induction ts with
  | nil => exact fun _ => rfl
  | cons u us ih =>
    intro s
    rw [stopThreads, ih]
    split_ifs with hu
    · exact auThreadMoveToTrash_thr s fun h => hu.1 h.symm
    · rfl

/-- The process that has exited dies. -/
theorem Inv.die (hi : Inv s) (h : Exiting E s s') (hp : p ∈ s.procs)
    (hE : ∀ T, E T → T ≠ .process p → s'.Gone T)
    (hnil : ∀ T, E T → s'.pending T = []) (hEp : E (.process p))
    (hmain : ∀ t, (s.proc p).main_thread = some t → E (.thread t))
    (hn : ∀ t, (s.proc p).main_thread = some t → s.NotWaiting t) :
    Inv (s'.setProc p { s'.proc p with died := true, busy := false }) := by
  have hp' : p ∈ s'.procs := h.frame.procs ▸ hp
  have hself : (s'.setProc p { s'.proc p with died := true, busy := false }).proc p =
      { s'.proc p with died := true, busy := false } := Function.update_self ..
  have hother : ∀ q, q ≠ p →
      (s'.setProc p { s'.proc p with died := true, busy := false }).proc q = s'.proc q :=
    fun q hq => Function.update_of_ne hq ..
  generalize hs : s'.setProc p { s'.proc p with died := true, busy := false } = s₂ at hself hother
  have hthr : s₂.thr = s'.thr := by rw [← hs]; rfl
  have hwaits : s₂.waits = s'.waits := by rw [← hs]; rfl
  have hwoken : s₂.woken = s'.woken := by rw [← hs]; rfl
  have hprocs : s₂.procs = s'.procs := by rw [← hs]; rfl
  have hpend : ∀ T, s₂.pending T = s'.pending T := by rw [← hs]; exact fun _ => rfl
  -- its main thread waits for nothing, so the bit was clear before
  have hidle : (s'.proc p).busy = false := by
    rw [Bool.eq_false_iff]
    intro hb
    have hpos := (h.core.busy p hp').mp hb
    rw [h.core.count p hp'] at hpos
    obtain ⟨w, hw⟩ := List.exists_mem_of_length_pos hpos
    obtain ⟨hw, -, hk, hm⟩ := mem_threadWaits.mp hw
    rw [h.frame.main] at hm
    exact hk (h.frame.notWaiting (hn w.waiter hm) w hw rfl)
  have hgone : ∀ T, s'.Gone T → s₂.Gone T := by
    intro T hT
    cases T with
    | thread t =>
      show (s₂.thr t).state = _
      rw [hthr]
      exact hT
    | process q =>
      show (s₂.proc q).died = true
      by_cases he : q = p
      · rw [he, hself]
      · rw [hother q he]
        exact hT
  have hcore : Core E s₂ := by
    refine h.core.congr hprocs hwaits hwoken (fun q _ => ?_) (fun q _ => ?_) (fun q _ => ?_)
      (fun w hw hk => ?_) (fun w _ => hgone w.target) fun T hT => ?_
    · by_cases he : q = p
      · rw [he, hself]
      · rw [hother q he]
    · by_cases he : q = p
      · rw [he, hself]
      · rw [hother q he]
    · by_cases he : q = p
      · rw [he, hself]
        exact hidle.symm
      · rw [hother q he]
    · rw [hthr]
      exact h.core.alive w hw hk
    · cases T with
      | thread t =>
        left
        show (s'.thr t).state = _
        rw [← hthr]
        exact hT
      | process q =>
        by_cases he : q = p
        · rw [he]
          exact .inr (.inl hEp)
        · left
          show (s'.proc q).died = true
          rw [← hother q he]
          exact hT
  have hclosed := hcore.close fun T hT => by
    refine ⟨?_, by rw [hpend]; exact hnil T hT⟩
    by_cases he : T = .process p
    · rw [he]
      show (s₂.proc p).died = true
      rw [hself]
    · exact hgone T (hE T hT he)
  refine ⟨hclosed, ⟨fun t => ?_, fun q => ?_⟩, fun t ht => ?_, fun q hq t ht => ?_, ?_, ?_, ?_,
    fun q hq hd t ht => ?_⟩
  · rw [hthr, hpend]
    exact h.lists.thread t
  · rw [hpend, ← h.lists.process q]
    by_cases he : q = p
    · rw [he, hself]
    · rw [hother q he]
  · rw [auThreadFindByID_congr (s := s') (by rw [hthr])] at ht
    rw [← hs]
    exact h.frame.thread_id ▸ hi.found t (h.frame.found t ht)
  · rw [hprocs, h.frame.procs] at hq
    have hm : (s₂.proc q).main_thread = (s.proc q).main_thread := by
      rw [← h.frame.main]
      by_cases he : q = p
      · rw [he, hself]
      · rw [hother q he]
    rw [hm] at ht
    rw [← hs]
    exact h.frame.thread_id ▸ hi.mains_lt q hq t ht
  · rw [hwaits, h.frame.waits, ← hs]
    exact h.frame.thread_id ▸ hi.threads_lt
  · rw [hwaits, h.frame.waits, ← hs]
    exact h.frame.pid ▸ hi.procs_lt
  · rw [hprocs, h.frame.procs, ← hs]
    exact h.frame.pid ▸ hi.pids
  · rw [hthr]
    by_cases he : q = p
    · rw [he, hself] at ht
      have hm : (s.proc p).main_thread = some t := by
        rw [← h.frame.main]
        exact ht
      exact hE _ (hmain t hm) fun h => by cases h
    · rw [hother q he, h.frame.main] at ht
      rw [hother q he, h.frame.died] at hd
      rw [hprocs, h.frame.procs] at hq
      exact h.frame.killable t (hi.died q hq hd t ht)

/-- What the exit of `p` by `current` is about. -/
def exitTargets (p current : ℕ) (main : Option ℕ) : Target → Prop
  | .thread t => t = current ∨ main = some t
  | .process q => q = p

theorem Inv.processExit (hi : Inv s) (hp : p ∈ s.procs) (hr : (s.thr current).state ≠ .killable)
    (hmem : (s.proc p).main_thread = some current ∨ current ∈ (s.proc p).threads)
    (hk : Kind s (.processExit p current)) :
    Inv (auThreadMoveToTrash (auProcessExit s p current) current) := by
  obtain ⟨href, hall, hwaiters⟩ := hk
  have hn : ∀ t, (s.proc p).main_thread = some t ∨ t ∈ (s.proc p).threads → s.NotWaiting t := by
    intro t ht
    refine hall t (List.mem_append.mpr (ht.imp_left fun h => ?_))
    rw [h]
    exact List.mem_singleton.mpr rfl
  have hncur : s.NotWaiting current := hn current hmem
  generalize hmain : (s.proc p).main_thread = main at hmem hn
  generalize hthreads : (s.proc p).threads = threads at hmem hn hwaiters
  have hcur : exitTargets p current main (.thread current) := .inl rfl
  have hproc : exitTargets p current main (.process p) := rfl
  have h0 : Exiting (exitTargets p current main) s s :=
    .refl (hi.core.mono fun _ h => h.elim) hi.lists
  -- the main thread is stopped by the exit of another thread
  obtain ⟨s₁, h1, hk1, hc1, he1⟩ : ∃ s₁, Exiting (exitTargets p current main) s s₁ ∧
      (∀ m, main = some m → m ≠ current → (s₁.thr m).state = .killable) ∧
      (s₁.thr current).state ≠ .killable ∧
      stopMain current s main = s₁ := by
    cases main with
    | none => exact ⟨s, h0, fun m hm => (by cases hm), hr, rfl⟩
    | some m =>
      unfold stopMain
      dsimp only
      split_ifs with hmc
      · obtain ⟨hx, hkx⟩ := h0.trash (t := m) (hn m (.inl rfl)) (.inl (.inr rfl))
        refine ⟨_, hx, fun m' hm' _ => ?_, ?_, rfl⟩
        · cases hm'
          exact hkx
        · rw [auThreadMoveToTrash_thr s fun h => hmc h.symm]
          exact hr
      · exact ⟨s, h0, fun m' hm' hne => absurd (by cases hm'; exact hne) hmc, hr, rfl⟩
  -- the other sub-threads, for which nobody waits
  obtain ⟨h2, hall⟩ := Exiting.stop current main threads (fun t ht => hn t (.inr ht))
    (fun t ht hne => .inr (hwaiters t ht hne)) s₁ h1
  have hc2 : ((stopThreads current main threads s₁).thr current).state ≠ .killable := by
    rw [stopThreads_current]
    exact hc1
  have hk2 : ∀ m, main = some m → m ≠ current →
      ((stopThreads current main threads s₁).thr m).state = .killable := fun m hm hne =>
    stopThreads_killable current main threads s₁ (hk1 m hm hne)
  generalize hs2 : stopThreads current main threads s₁ = s₂ at h2 hall hc2 hk2
  -- the waiters of the main thread
  obtain ⟨s₃, h3, hd3, hnil3, he3⟩ : ∃ s₃, Exiting (exitTargets p current main) s s₃ ∧
      KeepsDead s₂ s₃ ∧ (∀ m, main = some m → s₃.pending (.thread m) = []) ∧
      freeMain s₂ main = s₃ := by
    cases main with
    | none => exact ⟨s₂, h2, fun _ => Iff.rfl, fun m hm => (by cases hm), rfl⟩
    | some m =>
      obtain ⟨hx, hd, hnil⟩ := h2.free (t := m) (.inr rfl)
      refine ⟨_, hx, hd, fun m' hm' => ?_, rfl⟩
      cases hm'
      exact hnil
  -- those of the process
  obtain ⟨h4, hd4, hnil4⟩ := h3.wakeWaiters hproc
  have hf4 := ((Exiting.refl h3.core h3.lists).wakeWaiters hproc).1.frame
  generalize hs4 : auProcessWakeWaiters s₃ p = s₄ at h4 hd4 hnil4 hf4
  have hd : KeepsDead s₂ s₄ := fun t => (hd4 t).trans (hd3 t)
  -- and those of the thread that exits
  have hkill : ∀ t ∈ threads, t ≠ current → some t ≠ main → (s₄.thr t).state = .killable :=
    fun t ht hne hm => (hd t).mpr (hall t ht hne hm)
  obtain ⟨h5, hnil5⟩ := Exiting.freeThreads current main threads hncur hcur s₄ h4 hkill
  have hf5 := (Exiting.freeThreads current main threads (h4.frame.notWaiting hncur) hcur s₄
    (.refl h4.core h4.lists) hkill).1.frame
  generalize hs5 : freeThreads current main threads s₄ = s₅ at h5 hnil5 hf5
  obtain ⟨h6, hk6⟩ := h5.trash hncur (.inl hcur)
  have hf6 := ((Exiting.refl h5.core h5.lists).trash (h5.frame.notWaiting hncur) (.inl hcur)).1.frame
  have hexit : auThreadMoveToTrash (auProcessExit s p current) current =
      (auThreadMoveToTrash s₅ current).setProc p
        { (auThreadMoveToTrash s₅ current).proc p with died := true, busy := false } := by
    unfold auProcessExit
    rw [if_neg href, auThreadMoveToTrash_proc]
    dsimp only
    rw [auThreadMoveToTrash_setProc, hmain, hthreads, he1, hs2, he3, hs4, hs5]
  rw [hexit]
  have hnilMain : ∀ m, main = some m →
      (auThreadMoveToTrash s₅ current).pending (.thread m) = [] := fun m hm =>
    hf6.pending_nil (hf5.pending_nil (hf4.pending_nil (hnil3 m hm)))
  have hnilCur : (auThreadMoveToTrash s₅ current).pending (.thread current) = [] := by
    by_cases hm : some current = main
    · exact hnilMain current hm.symm
    · have hin : current ∈ threads := hmem.resolve_left fun h => hm h.symm
      exact hf6.pending_nil (hnil5 (.inr ⟨hin, hm, fun h => hc2 ((hd current).mp h)⟩))
  refine hi.die h6 hp (fun T hT hne => ?_) (fun T hT => ?_) hproc (fun t ht => ?_) fun t ht => ?_
  · cases T with
    | process q => exact absurd (by rw [show q = p from hT]) hne
    | thread t =>
      by_cases he : t = current
      · rw [he]
        exact hk6
      · have hm : main = some t := hT.resolve_left he
        exact hf6.killable t (hf5.killable t ((hd t).mpr (hk2 t hm he)))
  · cases T with
    | process q =>
      rw [show q = p from hT]
      exact hf6.pending_nil (hf5.pending_nil hnil4)
    | thread t =>
      rcases hT with rfl | hm
      · exact hnilCur
      · exact hnilMain t hm
  · rw [hmain] at ht
    exact .inr ht
  · rw [hmain] at ht
    exact hn t (.inl ht)

theorem Inv.exitThread (hi : Inv s) (hn : s.NotWaiting t) : Inv (auExitSubThread s t) := by
  unfold auExitSubThread
  dsimp only
  have h0 : Exiting (· = .thread t) s s := .refl (hi.core.mono fun _ h => h.elim) hi.lists
  generalize hx : ({ s.thr t with state := .killable } : AA64Thread) = x
  have hxs : x.state = .killable := by rw [← hx]
  have hxp : x.place = (s.thr t).place := by rw [← hx]
  have hxw : x.waitlist = (s.thr t).waitlist := by rw [← hx]
  have h1 : Exiting (· = .thread t) s (s.setThr t x) := by
    refine ⟨h0.core.kill hn (.inl rfl) x hxs (.inr hxp), h0.lists.keep ⟨fun t' => ?_, fun _ => rfl⟩
      fun _ => rfl, frame_setState s t x hxs (.inr hxp)⟩
    unfold State.setThr
    dsimp only
    by_cases he : t' = t
    · rw [he, Function.update_self, hxw]
    · rw [Function.update_of_ne he]
  obtain ⟨h2, -, hnil⟩ := h1.free (t := t) rfl
  obtain ⟨h3, hk⟩ := h2.trash hn (.inl rfl)
  have hf := ((Exiting.refl h2.core h2.lists).trash (h2.frame.notWaiting hn) (.inl rfl)).1.frame
  refine hi.ofExiting h3 (h3.core.close fun T hT => ?_)
  rw [hT]
  exact ⟨hk, hf.pending_nil hnil⟩

/-! ## A new wait -/

theorem Core.new_not_woken (hc : Core E s) (hid : w.id = s.waits.length) : w.id ∉ s.woken := by
  intro h
  have := hc.woken_lt _ h
  omega

theorem Core.pending_add (hc : Core E s) (hid : w.id = s.waits.length)
    (hwaits : s'.waits = s.waits ++ [w]) (hwoken : s'.woken = s.woken) (T : Target) :
    s'.pending T = s.pending T ++ if w.target = T then [w] else [] := by
  unfold State.pending
  rw [hwaits, hwoken, List.filter_append, List.filter_singleton]
  have hn := hc.new_not_woken hid
  by_cases h : w.target = T
  · simp only [h, hn, not_false_eq_true, and_self, decide_true, cond_true, if_true]
  · simp only [h, false_and, decide_false, cond_false, if_false]

theorem Core.threadWaits_add (hc : Core E s) (hid : w.id = s.waits.length)
    (hwaits : s'.waits = s.waits ++ [w]) (hwoken : s'.woken = s.woken)
    (hmain : (s'.proc p).main_thread = (s.proc p).main_thread) :
    s'.threadWaits p = s.threadWaits p ++
      if w.target.isThread = true ∧ (s.proc p).main_thread = some w.waiter then [w] else [] := by
  unfold State.threadWaits
  rw [hwaits, hwoken, hmain, List.filter_append, List.filter_singleton]
  have hn := hc.new_not_woken hid
  by_cases h : w.target.isThread = true ∧ (s.proc p).main_thread = some w.waiter
  · simp only [h.1, h.2, hn, not_false_eq_true, and_self, decide_true, cond_true, if_true]
  · rw [if_neg h, decide_eq_false fun h' => h ⟨h'.1, h'.2.2⟩]
    rfl

/-- What the start of a wait changes. -/
structure Begins (s s' : State) (w : Wait) : Prop where
  id : w.id = s.waits.length
  waits : s'.waits = s.waits ++ [w]
  woken : s'.woken = s.woken
  procs : s'.procs = s.procs
  thread_id : s'.thread_id = s.thread_id
  pid : s'.pid = s.pid
  main : ∀ p, (s'.proc p).main_thread = (s.proc p).main_thread
  died : ∀ p, (s'.proc p).died = (s.proc p).died
  dead : KeepsDead s s'
  found : ∀ t, (auThreadFindByID s' t).isSome → (auThreadFindByID s t).isSome
  threadList : ∀ t, (s'.thr t).waitlist.getD [] =
    (s.thr t).waitlist.getD [] ++ if w.target = .thread t then [w.entry] else []
  processList : ∀ p, (s'.proc p).waitlist.getD [] =
    (s.proc p).waitlist.getD [] ++ if w.target = .process p then [w.entry] else []

theorem Inv.begins (hi : Inv s) (hb : Begins s s' w) (hgone : ¬ s.Gone w.target)
    (halive : (s.thr w.waiter).state ≠ .killable)
    (howner : w.target.isThread = true → ∃ p ∈ s.procs, (s.proc p).main_thread = some w.waiter)
    (hlt : ∀ t, w.target = .thread t → t < s.thread_id)
    (hpid : ∀ p, w.target = .process p → p < s.pid)
    (hcount : ∀ p ∈ s.procs, (s'.proc p).waiting_threads.toNat = (s.proc p).waiting_threads.toNat +
      (if w.target.isThread = true ∧ (s.proc p).main_thread = some w.waiter then [w] else []).length)
    (hbusy : ∀ p ∈ s.procs, (s'.proc p).busy = true ↔ 0 < (s'.proc p).waiting_threads.toNat)
    (hsmall : ∀ p ∈ s.procs, (s'.proc p).waiting_threads.toNat < 32768) : Inv s' := by
  have hc := hi.core
  have hn := hc.new_not_woken hb.id
  have hpend := hc.pending_add hb.id hb.waits hb.woken
  have hgone' : ∀ T, s'.Gone T ↔ s.Gone T := by
    intro T
    cases T with
    | thread t => exact hb.dead t
    | process p =>
      show (s'.proc p).died = true ↔ (s.proc p).died = true
      rw [hb.died]
  have hmem : ∀ x, x ∈ s'.waits ↔ x ∈ s.waits ∨ x = w := by
    intro x
    rw [hb.waits, List.mem_append, List.mem_singleton]
  have hlen : s'.waits.length = s.waits.length + 1 := by
    rw [hb.waits, List.length_append]
    rfl
  refine ⟨⟨?_, ?_, ?_, ?_, ?_, ?_, ?_, ?_, ?_, ?_, ?_, ?_⟩, ⟨fun t => ?_, fun p => ?_⟩, ?_, ?_, ?_,
    ?_, ?_, ?_⟩
  · rw [hb.procs]
    intro p hp q hq t h h'
    rw [hb.main] at h h'
    exact hc.mains p hp q hq t h h'
  · rw [hb.waits, List.map_append, List.map_singleton]
    refine hc.ids.append (List.nodup_singleton _) fun i hi' hw => ?_
    obtain ⟨x, hx, rfl⟩ := List.mem_map.mp hi'
    have := hc.id_lt x hx
    have := List.mem_singleton.mp hw
    have := hb.id
    omega
  · rw [hb.woken, hlen]
    exact fun i h => Nat.lt_succ_of_lt (hc.woken_lt i h)
  · intro x hx
    rw [hlen]
    rcases (hmem x).mp hx with h | rfl
    · exact Nat.lt_succ_of_lt (hc.id_lt x h)
    · rw [hb.id]
      exact Nat.lt_succ_self _
  · rw [hb.woken]
    exact hc.once
  · intro x hx hk hd
    rw [hb.woken] at hk
    rw [hb.dead] at hd
    rcases (hmem x).mp hx with h | rfl
    · exact hc.alive x h hk hd
    · exact halive hd
  · intro x hx hk ht
    rw [hb.woken] at hk
    simp only [hb.procs, hb.main]
    rcases (hmem x).mp hx with h | rfl
    · exact hc.owner x h hk ht
    · exact howner ht
  · intro x hx hk
    rw [hb.woken] at hk
    rw [hgone']
    rcases (hmem x).mp hx with h | rfl
    · exact hc.gone x h hk
    · exact absurd hk hn
  · intro T hT hE
    rw [hgone'] at hT
    rw [hpend, hc.served T hT hE, if_neg fun h => hgone (by rwa [h])]
    rfl
  · rw [hb.procs]
    intro p hp
    rw [hcount p hp, hc.count p hp, hc.threadWaits_add hb.id hb.waits hb.woken (hb.main p),
      List.length_append]
  · rw [hb.procs]
    exact hbusy
  · rw [hb.procs]
    exact hsmall
  · rw [hb.threadList, hpend, List.map_append, hi.lists.thread]
    split_ifs <;> rfl
  · rw [hb.processList, hpend, List.map_append, hi.lists.process]
    split_ifs <;> rfl
  · rw [hb.thread_id]
    exact fun t ht => hi.found t (hb.found t ht)
  · rw [hb.procs, hb.thread_id]
    intro p hp t ht
    rw [hb.main] at ht
    exact hi.mains_lt p hp t ht
  · intro x hx t ht
    rw [hb.thread_id]
    rcases (hmem x).mp hx with h | rfl
    · exact hi.threads_lt x h t ht
    · exact hlt t ht
  · intro x hx p hp
    rw [hb.pid]
    rcases (hmem x).mp hx with h | rfl
    · exact hi.procs_lt x h p hp
    · exact hpid p hp
  · rw [hb.procs, hb.pid]
    exact hi.pids
  · rw [hb.procs]
    intro p hp hd t ht
    rw [hb.died] at hd
    rw [hb.main] at ht
    exact (hb.dead t).mpr (hi.died p hp hd t ht)

theorem auBlockThread_dead (hr : (s.thr t).state ≠ .killable) :
    KeepsDead s (auBlockThread s t) := by
  intro t'
  unfold auBlockThread State.setThr
  dsimp only
  by_cases he : t' = t
  · rw [he, Function.update_self]
    exact iff_of_false (fun h => by cases h) hr
  · rw [Function.update_of_ne he]

theorem auBlockThread_waitlist (s : State) (t t' : ℕ) :
    ((auBlockThread s t).thr t').waitlist = (s.thr t').waitlist := by
  unfold auBlockThread State.setThr
  dsimp only
  by_cases he : t' = t
  · rw [he, Function.update_self]
  · rw [Function.update_of_ne he]

theorem State.Runs.found (h : s.Runs t) : (auThreadFindByID s t).isSome := by
  unfold auThreadFindByID
  rw [h.2]
  rfl

theorem State.Runs.alive (h : s.Runs t) : (s.thr t).state ≠ .killable := by
  rw [h.1]
  decide

theorem auBlockThread_found (hr : (auThreadFindByID s t).isSome) (t' : ℕ)
    (h : (auThreadFindByID (auBlockThread s t) t').isSome) : (auThreadFindByID s t').isSome := by
  by_cases he : t' = t
  · rwa [he]
  · rwa [auThreadFindByID_congr (s := s)] at h
    unfold auBlockThread State.setThr
    dsimp only
    rw [Function.update_of_ne he]

theorem auThreadFindByID_eq_some {d : ℕ} (h : auThreadFindByID s t = some d) : d = t := by
  unfold auThreadFindByID at h
  split at h
  · cases h
    rfl
  · cases h
    rfl
  · cases h
    rfl
  · cases h

theorem auProcessFindThread_eq_some (h : auProcessFindThread s t = some p) :
    p ∈ s.procs ∧ (s.proc p).main_thread = some t :=
  ⟨List.mem_of_find?_eq_some h, by simpa using List.find?_some h⟩

theorem Inv.threadWait {curr tid : ℕ} {alloc : Bool} (hi : Inv s) (hr : s.Runs curr)
    (hk : Kind s (.threadWait curr tid alloc)) :
    Inv (auThreadWaitForTermination s curr tid alloc) := by
  obtain ⟨rfl, hgone, hsmall⟩ := hk
  unfold auThreadWaitForTermination
  split
  · exact hi
  · rename_i desired hfind
    have hd := auThreadFindByID_eq_some hfind
    subst hd
    dsimp only
    split_ifs with hlist
    · exact hi
    · split
      · exact hi
      · rename_i p hp
        obtain ⟨hmem, hmain⟩ := auProcessFindThread_eq_some hp
        obtain ⟨ws, hws⟩ := Option.ne_none_iff_exists'.mp hlist
        have hroom := hsmall p hp
        -- the state in which the caller blocks
        obtain ⟨s₁, hs⟩ : ∃ s₁ : State, s₁ = { (s.setProc p { s.proc p with
            busy := true, waiting_threads := (s.proc p).waiting_threads + 1 }).setThr desired
            { s.thr desired with
              waitlist := listAdd (s.thr desired).waitlist ⟨curr, s.waits.length⟩ true } with
          waits := s.waits ++ [⟨s.waits.length, curr, .thread desired⟩] } := ⟨_, rfl⟩
        have hself : s₁.proc p = { s.proc p with
            busy := true, waiting_threads := (s.proc p).waiting_threads + 1 } := by
          rw [hs]
          exact Function.update_self ..
        have hother : ∀ q, q ≠ p → s₁.proc q = s.proc q := by
          rw [hs]
          exact fun q hq => Function.update_of_ne hq ..
        have hthr : s₁.thr desired = { s.thr desired with
            waitlist := some (ws ++ [⟨curr, s.waits.length⟩]) } := by
          rw [hs, hws]
          exact Function.update_self ..
        have hthr' : ∀ t, t ≠ desired → s₁.thr t = s.thr t := by
          rw [hs]
          exact fun t ht => Function.update_of_ne ht ..
        have hdead : KeepsDead s s₁ := by
          intro t
          by_cases he : t = desired
          · rw [he, hthr]
          · rw [hthr' t he]
        have hplace : ∀ t, (s₁.thr t).place = (s.thr t).place := by
          intro t
          by_cases he : t = desired
          · rw [he, hthr]
          · rw [hthr' t he]
        have hf := fun t => auThreadFindByID_congr (hplace t)
        have hb : Begins s (auBlockThread s₁ curr) ⟨s.waits.length, curr, .thread desired⟩ := by
          refine ⟨rfl, by rw [hs]; rfl, by rw [hs]; rfl, by rw [hs]; rfl, by rw [hs]; rfl,
            by rw [hs]; rfl, fun q => ?_, fun q => ?_, fun t => ?_, fun t ht => ?_, fun t => ?_,
            fun q => ?_⟩
          · show (s₁.proc q).main_thread = _
            by_cases he : q = p
            · rw [he, hself]
            · rw [hother q he]
          · show (s₁.proc q).died = _
            by_cases he : q = p
            · rw [he, hself]
            · rw [hother q he]
          · exact (auBlockThread_dead (fun h => hr.alive ((hdead curr).mp h)) t).trans (hdead t)
          · have := auBlockThread_found (by rw [hf]; exact hr.found) t ht
            rwa [hf] at this
          · rw [auBlockThread_waitlist]
            by_cases he : t = desired
            · rw [he, hthr, if_pos rfl, hws]
              rfl
            · rw [hthr' t he, if_neg fun h => he (by cases h; rfl), List.append_nil]
          · rw [if_neg (fun h => by cases h), List.append_nil]
            show (s₁.proc q).waitlist.getD [] = _
            by_cases he : q = p
            · rw [he, hself]
            · rw [hother q he]
        have hinc : ((s.proc p).waiting_threads + 1).toNat =
            (s.proc p).waiting_threads.toNat + 1 := by
          have hlt : (s.proc p).waiting_threads.toNat < 32767 := UInt16.lt_iff_toNat_lt.mp hroom
          have h1 : (1 : UInt16).toNat = 1 := rfl
          rw [UInt16.toNat_add, h1]
          exact Nat.mod_eq_of_lt (by omega)
        have hinv : Inv (auBlockThread s₁ curr) := by
          refine hi.begins hb hgone hr.alive (fun _ => ⟨p, hmem, hmain⟩) (fun t ht => ?_)
            (fun q hq => by cases hq) (fun q hq => ?_) (fun q hq => ?_) fun q hq => ?_
          · cases ht
            exact hi.found _ (by rw [hfind]; rfl)
          · show (s₁.proc q).waiting_threads.toNat = _
            by_cases he : q = p
            · rw [he, hself, if_pos ⟨rfl, hmain⟩]
              exact hinc
            · rw [hother q he, if_neg fun h => he (hi.core.mains q hq p hmem _ h.2 hmain)]
              rfl
          · show (s₁.proc q).busy = true ↔ 0 < (s₁.proc q).waiting_threads.toNat
            by_cases he : q = p
            · rw [he, hself]
              exact iff_of_true rfl (by rw [hinc]; exact Nat.succ_pos _)
            · rw [hother q he]
              exact hi.core.busy q hq
          · show (s₁.proc q).waiting_threads.toNat < _
            by_cases he : q = p
            · have hlt : (s.proc p).waiting_threads.toNat < 32767 := UInt16.lt_iff_toNat_lt.mp hroom
              rw [he, hself, hinc]
              omega
            · rw [hother q he]
              exact hi.core.small q hq
        rw [hs] at hinv
        exact hinv

theorem Inv.processWait {curr child : ℕ} {alloc : Bool} (hi : Inv s) (hr : s.Runs curr)
    (hk : Kind s (.processWait curr child alloc)) :
    Inv (auProcessWaitForTermination s curr child alloc) := by
  obtain rfl : alloc = true := hk
  unfold auProcessWaitForTermination
  split_ifs with hmem
  · dsimp only
    split_ifs with hdie
    · exact hi
    · rw [not_or] at hdie
      obtain ⟨ws, hws⟩ := Option.ne_none_iff_exists'.mp hdie.2
      obtain ⟨s₁, hs⟩ : ∃ s₁ : State, s₁ = { (auBlockThread s curr).setProc child { s.proc child with
          waitlist := listAdd (s.proc child).waitlist ⟨curr, s.waits.length⟩ true } with
        waits := (auBlockThread s curr).waits ++ [⟨s.waits.length, curr, .process child⟩] } :=
          ⟨_, rfl⟩
      have hself : s₁.proc child = { s.proc child with
          waitlist := some (ws ++ [⟨curr, s.waits.length⟩]) } := by
        rw [hs, hws]
        exact Function.update_self ..
      have hother : ∀ q, q ≠ child → s₁.proc q = s.proc q := by
        rw [hs]
        exact fun q hq => Function.update_of_ne hq ..
      have hthr : s₁.thr = (auBlockThread s curr).thr := by rw [hs]; rfl
      have hb : Begins s s₁ ⟨s.waits.length, curr, .process child⟩ := by
        refine ⟨rfl, by rw [hs]; rfl, by rw [hs]; rfl, by rw [hs]; rfl, by rw [hs]; rfl,
          by rw [hs]; rfl, fun q => ?_, fun q => ?_, fun t => ?_, fun t ht => ?_, fun t => ?_,
          fun q => ?_⟩
        · by_cases he : q = child
          · rw [he, hself]
          · rw [hother q he]
        · by_cases he : q = child
          · rw [he, hself]
          · rw [hother q he]
        · rw [hthr]
          exact auBlockThread_dead hr.alive t
        · rw [auThreadFindByID_congr (s := auBlockThread s curr) (by rw [hthr])] at ht
          exact auBlockThread_found hr.found t ht
        · rw [hthr, auBlockThread_waitlist, if_neg (fun h => by cases h), List.append_nil]
        · by_cases he : q = child
          · rw [he, hself, if_pos rfl, hws]
            rfl
          · rw [hother q he, if_neg fun h => he (by cases h; rfl), List.append_nil]
      have hsame : ∀ q, (s₁.proc q).waiting_threads = (s.proc q).waiting_threads ∧
          (s₁.proc q).busy = (s.proc q).busy := by
        intro q
        by_cases he : q = child
        · rw [he, hself]
          exact ⟨rfl, rfl⟩
        · rw [hother q he]
          exact ⟨rfl, rfl⟩
      have hinv : Inv s₁ := by
        refine hi.begins hb hdie.1 hr.alive (fun h => by cases h) (fun t ht => by cases ht)
          (fun q hq => ?_) (fun q hq => ?_) (fun q hq => ?_) fun q hq => ?_
        · cases hq
          exact hi.pids _ hmem
        · rw [(hsame q).1, if_neg fun h => by cases h.1]
          rfl
        · rw [(hsame q).1, (hsame q).2]
          exact hi.core.busy q hq
        · rw [(hsame q).1]
          exact hi.core.small q hq
      rw [hs] at hinv
      exact hinv
  · exact hi

/-! ## The other steps -/

/-- A process whose main thread runs has not died, and it is busy only while it counts waits. -/
theorem Inv.waitAny {curr : ℕ} (hi : Inv s) (hr : s.Runs curr) (hk : Kind s (.waitAny curr)) :
    Inv (auProcessWaitAny s curr) := by
  unfold auProcessWaitAny
  cases hp : auProcessFindThread s curr with
  | none => exact hi
  | some p =>
    obtain ⟨hmem, hmain⟩ := auProcessFindThread_eq_some hp
    have hz : (s.proc p).waiting_threads = 0 := hk p hp
    have hbusy : (s.proc p).busy = false := by
      rw [Bool.eq_false_iff]
      intro hb
      have hpos := (hi.core.busy p hmem).mp hb
      rw [hz] at hpos
      exact Nat.lt_irrefl 0 hpos
    have hdied : (s.proc p).died = false := by
      rw [Bool.eq_false_iff]
      exact fun hd => hr.alive (hi.died p hmem hd curr hmain)
    have hsame : s.setProc p { s.proc p with busy := false, died := false } = s := by
      have hx : ({ s.proc p with busy := false, died := false } : AuProcess) = s.proc p := by
        generalize s.proc p = x at hbusy hdied
        cases x
        cases hbusy
        cases hdied
        rfl
      unfold State.setProc
      rw [hx, Function.update_eq_self]
    dsimp only
    rw [hsame]
    exact hi

theorem Inv.unblock (hi : Inv s) (ht : (s.thr t).state ≠ .killable) :
    Inv (auUnblockThread s t) := by
  have hd : KeepsDead s (auUnblockThread s t) := auUnblockThread_state ht
  have hgone : ∀ T, (auUnblockThread s t).Gone T ↔ s.Gone T := by
    intro T
    cases T with
    | thread t' => exact hd t'
    | process p => exact Iff.rfl
  refine ⟨hi.core.congr rfl rfl rfl (fun _ _ => rfl) (fun _ _ => rfl) (fun _ _ => rfl)
    (fun w hw hk => ?_) (fun w _ => (hgone w.target).mpr) fun T hT => .inl ((hgone T).mp hT),
    hi.lists.keep ⟨auUnblockThread_waitlist s t, fun _ => rfl⟩ fun _ => rfl, fun t' h => ?_,
    hi.mains_lt, hi.threads_lt, hi.procs_lt, hi.pids, fun p hp hdie t' hm => ?_⟩
  · exact fun h => hi.core.alive w hw hk ((hd _).mp h)
  · rw [auThreadFindByID_unblock] at h
    exact hi.found t' h
  · exact (hd t').mpr (hi.died p hp hdie t' hm)

theorem auProcessWakeWaiters_nil (h : (s.proc p).waitlist.getD [] = []) :
    auProcessWakeWaiters s p = s.setProc p { s.proc p with waitlist := none } := by
  unfold auProcessWakeWaiters
  cases hw : (s.proc p).waitlist with
  | none =>
    have hx : ({ s.proc p with waitlist := none } : AuProcess) = s.proc p := by rw [← hw]
    unfold State.setProc
    rw [hx, Function.update_eq_self]
  | some ws =>
    rw [hw] at h
    obtain rfl : ws = [] := h
    rfl

/-- Nobody waits in a process that can be reaped, or for a thread of it. -/
theorem Inv.reap (hi : Inv s) (hr : s.CanReap p current) :
    Inv (auProcessClean s p) := by
  obtain ⟨hdied, hall⟩ := hr
  have hc := hi.core
  obtain ⟨freed, hfreed⟩ : ∃ freed, freed = (s.proc p).main_thread.toList ++ (s.proc p).threads :=
    ⟨_, rfl⟩
  rw [← hfreed] at hall
  have hmain : ∀ t, (s.proc p).main_thread = some t → t ∈ freed := by
    intro t ht
    rw [hfreed, ht]
    exact List.mem_append_left _ (List.mem_singleton.mpr rfl)
  have hnil : ∀ t ∈ freed, s.pending (.thread t) = [] := fun t ht =>
    hc.served _ (hall t ht).2 fun h => h
  have hnilp : s.pending (.process p) = [] := hc.served _ hdied fun h => h
  -- what is freed, and what stays
  obtain ⟨s₁, hs⟩ : ∃ s₁ : State, s₁ = auProcessClean s p := ⟨_, rfl⟩
  have hclean : auProcessClean s p =
      { s with
        thr := fun t => if t ∈ freed then { state := .killable } else s.thr t
        proc := Function.update s.proc p
          { s.proc p with main_thread := none, threads := [], waitlist := none }
        procs := s.procs.filter (· ≠ p) } := by
    unfold auProcessClean
    dsimp only
    rw [auProcessWakeWaiters_nil]
    · rw [hfreed]
      unfold State.setProc
      dsimp only
      rw [Function.update_idem, Function.update_self]
    · unfold State.setProc
      dsimp only
      rw [Function.update_self]
      dsimp only
      rw [hi.lists.process, hnilp]
      rfl
  rw [← hs] at hclean ⊢
  have hwaits : s₁.waits = s.waits := by rw [hclean]
  have hwoken : s₁.woken = s.woken := by rw [hclean]
  have hprocs : ∀ q, q ∈ s₁.procs ↔ q ∈ s.procs ∧ q ≠ p := by
    intro q
    rw [hclean, List.mem_filter, decide_eq_true_iff]
  have hother : ∀ q, q ≠ p → s₁.proc q = s.proc q := by
    rw [hclean]
    exact fun q hq => Function.update_of_ne hq ..
  have hself : s₁.proc p = { s.proc p with main_thread := none, threads := [], waitlist := none } := by
    rw [hclean]
    exact Function.update_self ..
  have hin : ∀ t ∈ freed, s₁.thr t = { state := .killable } := by
    rw [hclean]
    exact fun t ht => if_pos ht
  have hout : ∀ t, t ∉ freed → s₁.thr t = s.thr t := by
    rw [hclean]
    exact fun t ht => if_neg ht
  have hd : KeepsDead s s₁ := by
    intro t
    by_cases ht : t ∈ freed
    · rw [hin t ht]
      exact iff_of_true rfl (hall t ht).2
    · rw [hout t ht]
  have hgone : ∀ T, s₁.Gone T ↔ s.Gone T := by
    intro T
    cases T with
    | thread t => exact hd t
    | process q =>
      show (s₁.proc q).died = true ↔ (s.proc q).died = true
      by_cases he : q = p
      · rw [he, hself]
      · rw [hother q he]
  have hpend : ∀ T, s₁.pending T = s.pending T := by rw [hclean]; exact fun _ => rfl
  have halive : ∀ w ∈ s.waits, w.id ∉ s.woken → (s₁.thr w.waiter).state ≠ .killable :=
    fun w hw hk h => hc.alive w hw hk ((hd _).mp h)
  refine ⟨hc.shrink (fun q hq => ((hprocs q).mp hq).1) (fun q hq w hw hk hm => ?_) hwaits hwoken
    (fun q hq => by rw [hother q ((hprocs q).mp hq).2])
    (fun q hq => by rw [hother q ((hprocs q).mp hq).2])
    (fun q hq => by rw [hother q ((hprocs q).mp hq).2]) halive (fun w _ => (hgone w.target).mpr)
    fun T hT => .inl ((hgone T).mp hT), ⟨fun t => ?_, fun q => ?_⟩, fun t ht => ?_,
    fun q hq t ht => ?_, ?_, ?_, fun q hq => ?_, fun q hq hdie t ht => ?_⟩
  · refine (hprocs q).mpr ⟨hq, fun he => ?_⟩
    rw [he] at hm
    exact hc.alive w hw hk (hall _ (hmain _ hm)).2
  · rw [hpend]
    by_cases ht : t ∈ freed
    · rw [hin t ht, hnil t ht]
      rfl
    · rw [hout t ht]
      exact hi.lists.thread t
  · rw [hpend]
    by_cases he : q = p
    · rw [he, hself, hnilp]
      rfl
    · rw [hother q he]
      exact hi.lists.process q
  · by_cases hf : t ∈ freed
    · unfold auThreadFindByID at ht
      rw [hin t hf] at ht
      cases ht
    · rw [auThreadFindByID_congr (s := s) (by rw [hout t hf])] at ht
      rw [hclean]
      exact hi.found t ht
  · rw [hother q ((hprocs q).mp hq).2] at ht
    rw [hclean]
    exact hi.mains_lt q ((hprocs q).mp hq).1 t ht
  · rw [hclean]
    exact hi.threads_lt
  · rw [hclean]
    exact hi.procs_lt
  · have hlt := hi.pids q ((hprocs q).mp hq).1
    rw [hclean]
    exact hlt
  · rw [hother q ((hprocs q).mp hq).2] at hdie ht
    exact (hd t).mpr (hi.died q ((hprocs q).mp hq).1 hdie t ht)

/-- A thread that no wait is about yet. -/
theorem Inv.fresh (hi : Inv s) : s.pending (.thread s.thread_id) = [] := by
  rw [pending_eq_nil_iff]
  intro w hw ht
  exact absurd (hi.threads_lt w hw _ ht) (Nat.lt_irrefl _)

theorem Inv.newThread (hi : Inv s) (p : ℕ) : Inv (step s (.newThread p)) := by
  show Inv (if p ∈ s.procs ∧ !(s.proc p).died then _ else s)
  split_ifs with h
  · obtain ⟨s₁, hs⟩ : ∃ s₁ : State, s₁ = { s with
        thread_id := s.thread_id + 1
        thr := Function.update s.thr s.thread_id { place := some .ready, waitlist := some [] }
        proc := Function.update s.proc p
          { s.proc p with threads := (s.proc p).threads ++ [s.thread_id] } } := ⟨_, rfl⟩
    have hinv : Inv s₁ := by
      have hwaits : s₁.waits = s.waits := by rw [hs]
      have hwoken : s₁.woken = s.woken := by rw [hs]
      have hprocs : s₁.procs = s.procs := by rw [hs]
      have hid : s₁.thread_id = s.thread_id + 1 := by rw [hs]
      have hpid : s₁.pid = s.pid := by rw [hs]
      have hself : s₁.thr s.thread_id = { place := some .ready, waitlist := some [] } := by
        rw [hs]
        exact Function.update_self ..
      have hother : ∀ t, t ≠ s.thread_id → s₁.thr t = s.thr t := by
        rw [hs]
        exact fun t ht => Function.update_of_ne ht ..
      have hproc : ∀ q, (s₁.proc q).main_thread = (s.proc q).main_thread ∧
          (s₁.proc q).died = (s.proc q).died ∧ (s₁.proc q).busy = (s.proc q).busy ∧
          (s₁.proc q).waiting_threads = (s.proc q).waiting_threads ∧
          (s₁.proc q).waitlist = (s.proc q).waitlist := by
        intro q
        rw [hs]
        dsimp only
        by_cases he : q = p
        · rw [he, Function.update_self]
          exact ⟨rfl, rfl, rfl, rfl, rfl⟩
        · rw [Function.update_of_ne he]
          exact ⟨rfl, rfl, rfl, rfl, rfl⟩
      have hpend : ∀ T, s₁.pending T = s.pending T := by rw [hs]; exact fun _ => rfl
      refine ⟨hi.core.congr hprocs hwaits hwoken (fun q _ => (hproc q).1)
        (fun q _ => (hproc q).2.2.2.1) (fun q _ => (hproc q).2.2.1) (fun w hw hk => ?_)
        (fun w hw hT => ?_) fun T hT => ?_, ⟨fun t => ?_, fun q => ?_⟩, fun t ht => ?_,
        fun q hq t ht => ?_, fun w hw t ht => ?_, ?_, ?_, fun q hq hdie t ht => ?_⟩
      · by_cases he : w.waiter = s.thread_id
        · rw [he, hself]
          exact fun h => by cases h
        · rw [hother _ he]
          exact hi.core.alive w hw hk
      · cases hT' : w.target with
        | thread t =>
          rw [hT'] at hT
          show (s₁.thr t).state = _
          rw [hother t (Nat.ne_of_lt (hi.threads_lt w hw t hT'))]
          exact hT
        | process q =>
          rw [hT'] at hT
          exact (hproc q).2.1.trans hT
      · cases T with
        | thread t =>
          by_cases he : t = s.thread_id
          · rw [he]
            exact .inr (.inr hi.fresh)
          · left
            show (s.thr t).state = _
            rw [← hother t he]
            exact hT
        | process q => exact .inl ((hproc q).2.1.symm.trans hT)
      · rw [hpend]
        by_cases he : t = s.thread_id
        · rw [he, hself, hi.fresh]
          rfl
        · rw [hother t he]
          exact hi.lists.thread t
      · rw [hpend, (hproc q).2.2.2.2]
        exact hi.lists.process q
      · rw [hid]
        by_cases he : t = s.thread_id
        · omega
        · rw [auThreadFindByID_congr (s := s) (by rw [hother t he])] at ht
          exact Nat.lt_succ_of_lt (hi.found t ht)
      · rw [hprocs] at hq
        rw [(hproc q).1] at ht
        rw [hid]
        exact Nat.lt_succ_of_lt (hi.mains_lt q hq t ht)
      · rw [hwaits] at hw
        rw [hid]
        exact Nat.lt_succ_of_lt (hi.threads_lt w hw t ht)
      · rw [hwaits, hpid]
        exact hi.procs_lt
      · rw [hprocs, hpid]
        exact hi.pids
      · rw [hprocs] at hq
        rw [(hproc q).2.1] at hdie
        rw [(hproc q).1] at ht
        rw [hother t (Nat.ne_of_lt (hi.mains_lt q hq t ht))]
        exact hi.died q hq hdie t ht
    rw [hs] at hinv
    exact hinv
  · exact hi

theorem Inv.newProcess (hi : Inv s) (nonKillable : Bool) :
    Inv (step s (.newProcess nonKillable)) := by
  have hc := hi.core
  obtain ⟨s₁, hs⟩ : ∃ s₁ : State, s₁ = step s (.newProcess nonKillable) := ⟨_, rfl⟩
  have hwaits : s₁.waits = s.waits := by rw [hs]; rfl
  have hwoken : s₁.woken = s.woken := by rw [hs]; rfl
  have hprocs : ∀ q, q ∈ s₁.procs ↔ q ∈ s.procs ∨ q = s.pid := by
    intro q
    rw [hs]
    exact List.mem_append.trans (or_congr_right List.mem_singleton)
  have hid : s₁.thread_id = s.thread_id + 1 := by rw [hs]; rfl
  have hpid : s₁.pid = s.pid + 1 := by rw [hs]; rfl
  have hthr : s₁.thr s.thread_id = { place := some .ready, waitlist := some [] } := by
    rw [hs]
    exact Function.update_self ..
  have hthr' : ∀ t, t ≠ s.thread_id → s₁.thr t = s.thr t := by
    rw [hs]
    exact fun t ht => Function.update_of_ne ht ..
  have hself : s₁.proc s.pid =
      { main_thread := some s.thread_id, nonKillable, waitlist := some [] } := by
    rw [hs]
    exact Function.update_self ..
  have hother : ∀ q, q ≠ s.pid → s₁.proc q = s.proc q := by
    rw [hs]
    exact fun q hq => Function.update_of_ne hq ..
  have hold : ∀ q ∈ s.procs, s₁.proc q = s.proc q := fun q hq =>
    hother q (Nat.ne_of_lt (hi.pids q hq))
  have hpend : ∀ T, s₁.pending T = s.pending T := by rw [hs]; exact fun _ => rfl
  have hfresh : s.pending (.process s.pid) = [] := by
    rw [pending_eq_nil_iff]
    intro w hw ht
    exact absurd (hi.procs_lt w hw _ ht) (Nat.lt_irrefl _)
  have hgone : ∀ w ∈ s.waits, s₁.Gone w.target ↔ s.Gone w.target := by
    intro w hw
    cases hT : w.target with
    | thread t =>
      show (s₁.thr t).state = _ ↔ _
      rw [hthr' t (Nat.ne_of_lt (hi.threads_lt w hw t hT))]
      rfl
    | process q =>
      show (s₁.proc q).died = true ↔ _
      rw [hother q (Nat.ne_of_lt (hi.procs_lt w hw q hT))]
      rfl
  have htw : ∀ q ∈ s.procs, s₁.threadWaits q = s.threadWaits q := by
    intro q hq
    unfold State.threadWaits
    rw [hwaits, hwoken, hold q hq]
  -- no wait is by the new thread
  have hnew : s₁.threadWaits s.pid = [] := by
    rw [List.eq_nil_iff_forall_not_mem]
    intro w hw
    obtain ⟨hw, hth, hk, hm⟩ := mem_threadWaits.mp hw
    rw [hwaits] at hw
    rw [hwoken] at hk
    rw [hself] at hm
    obtain ⟨q, hq, hmain⟩ := hc.owner w hw hk hth
    have hlt := hi.mains_lt q hq _ hmain
    have heq : s.thread_id = w.waiter := Option.some.inj hm
    omega
  have hne : ∀ q ∈ s.procs, ∀ t, (s.proc q).main_thread = some t → t ≠ s.thread_id :=
    fun q hq t ht => Nat.ne_of_lt (hi.mains_lt q hq t ht)
  rw [← hs]
  refine ⟨⟨fun p hp q hq t h h' => ?_, ?_, ?_, ?_, ?_, ?_, ?_, ?_, fun T hT hE => ?_,
    fun q hq => ?_, fun q hq => ?_, fun q hq => ?_⟩, ⟨fun t => ?_, fun q => ?_⟩, fun t ht => ?_,
    fun q hq t ht => ?_, fun w hw t ht => ?_, fun w hw p hp => ?_, fun q hq => ?_,
    fun q hq hdie t ht => ?_⟩
  · rcases (hprocs p).mp hp with hp | rfl
    · rw [hold p hp] at h
      rcases (hprocs q).mp hq with hq | rfl
      · rw [hold q hq] at h'
        exact hc.mains p hp q hq t h h'
      · rw [hself] at h'
        cases h'
        exact absurd rfl (hne p hp _ h)
    · rw [hself] at h
      cases h
      rcases (hprocs q).mp hq with hq | rfl
      · rw [hold q hq] at h'
        exact absurd rfl (hne q hq _ h')
      · rfl
  · rw [hwaits]
    exact hc.ids
  · rw [hwaits, hwoken]
    exact hc.woken_lt
  · rw [hwaits]
    exact hc.id_lt
  · rw [hwoken]
    exact hc.once
  · rw [hwaits, hwoken]
    intro w hw hk
    by_cases he : w.waiter = s.thread_id
    · rw [he, hthr]
      exact fun h => by cases h
    · rw [hthr' _ he]
      exact hc.alive w hw hk
  · rw [hwaits, hwoken]
    intro w hw hk hth
    obtain ⟨q, hq, hm⟩ := hc.owner w hw hk hth
    exact ⟨q, (hprocs q).mpr (.inl hq), by rwa [hold q hq]⟩
  · rw [hwaits, hwoken]
    exact fun w hw hk => (hc.gone w hw hk).imp_left (hgone w hw).mpr
  · rw [hpend, List.eq_nil_iff_forall_not_mem]
    intro w hw
    obtain ⟨hw', ht, -⟩ := mem_pending.mp hw
    rw [← ht, hgone w hw', ht] at hT
    rw [hc.served T hT hE] at hw
    exact List.not_mem_nil hw
  · rcases (hprocs q).mp hq with hq | rfl
    · rw [hold q hq, htw q hq]
      exact hc.count q hq
    · rw [hself, hnew]
      rfl
  · rcases (hprocs q).mp hq with hq | rfl
    · rw [hold q hq]
      exact hc.busy q hq
    · rw [hself]
      exact iff_of_false Bool.false_ne_true (Nat.lt_irrefl 0)
  · rcases (hprocs q).mp hq with hq | rfl
    · rw [hold q hq]
      exact hc.small q hq
    · rw [hself]
      exact Nat.zero_lt_succ _
  · rw [hpend]
    by_cases he : t = s.thread_id
    · rw [he, hthr, hi.fresh]
      rfl
    · rw [hthr' t he]
      exact hi.lists.thread t
  · rw [hpend]
    by_cases he : q = s.pid
    · rw [he, hself, hfresh]
      rfl
    · rw [hother q he]
      exact hi.lists.process q
  · rw [hid]
    by_cases he : t = s.thread_id
    · omega
    · rw [auThreadFindByID_congr (s := s) (by rw [hthr' t he])] at ht
      exact Nat.lt_succ_of_lt (hi.found t ht)
  · rw [hid]
    rcases (hprocs q).mp hq with hq | rfl
    · rw [hold q hq] at ht
      exact Nat.lt_succ_of_lt (hi.mains_lt q hq t ht)
    · rw [hself] at ht
      cases ht
      exact Nat.lt_succ_self _
  · rw [hwaits] at hw
    rw [hid]
    exact Nat.lt_succ_of_lt (hi.threads_lt w hw t ht)
  · rw [hwaits] at hw
    rw [hpid]
    exact Nat.lt_succ_of_lt (hi.procs_lt w hw p hp)
  · rw [hpid]
    rcases (hprocs q).mp hq with hq | rfl
    · exact Nat.lt_succ_of_lt (hi.pids q hq)
    · exact Nat.lt_succ_self _
  · rcases (hprocs q).mp hq with hq | rfl
    · rw [hold q hq] at hdie ht
      rw [hthr' t (hne q hq t ht)]
      exact hi.died q hq hdie t ht
    · rw [hself] at hdie
      cases hdie

theorem Inv.step (hi : Inv s) (a : Act) (hk : Kind s a) : Inv (step s a) := by
  cases a with
  | newProcess nonKillable => exact hi.newProcess nonKillable
  | newThread p => exact hi.newThread p
  | threadWait curr tid alloc =>
    show Inv (if s.Runs curr then _ else s)
    split_ifs with hr
    · exact hi.threadWait hr hk
    · exact hi
  | processWait curr child alloc =>
    show Inv (if s.Runs curr then _ else s)
    split_ifs with hr
    · exact hi.processWait hr hk
    · exact hi
  | waitAny curr =>
    show Inv (if s.Runs curr then _ else s)
    split_ifs with hr
    · exact hi.waitAny hr hk
    · exact hi
  | exitThread p t =>
    show Inv (if s.Runs t ∧ t ∈ (s.proc p).threads then _ else s)
    split_ifs with hr
    · exact hi.exitThread hk
    · exact hi
  | processExit p current =>
    show Inv (if p ∈ s.procs ∧ s.Runs current ∧ _ then _ else s)
    split_ifs with hr
    · exact hi.processExit hr.1 hr.2.1.alive hr.2.2 hk
    · exact hi
  | reap p current =>
    show Inv (if p ∈ s.procs ∧ s.CanReap p current then _ else s)
    split_ifs with hr
    · exact hi.reap hr.2
    · exact hi
  | unblock t =>
    show Inv (if (s.thr t).state = .killable then s else _)
    split_ifs with ht
    · exact hi
    · exact hi.unblock ht

theorem inv_init : Inv {} where
  core := ⟨fun _ h => absurd h List.not_mem_nil, List.nodup_nil, fun _ h => absurd h List.not_mem_nil,
    fun _ h => absurd h List.not_mem_nil, List.nodup_nil, fun _ h => absurd h List.not_mem_nil,
    fun _ h => absurd h List.not_mem_nil, fun _ h => absurd h List.not_mem_nil, fun _ _ _ => rfl,
    fun _ h => absurd h List.not_mem_nil, fun _ h => absurd h List.not_mem_nil,
    fun _ h => absurd h List.not_mem_nil⟩
  lists := ⟨fun _ => rfl, fun _ => rfl⟩
  found := fun _ h => by cases h
  mains_lt := fun _ h => absurd h List.not_mem_nil
  threads_lt := fun _ h => absurd h List.not_mem_nil
  procs_lt := fun _ h => absurd h List.not_mem_nil
  pids := fun _ h => absurd h List.not_mem_nil
  died := fun _ h => absurd h List.not_mem_nil

end Xeneva.Termination
