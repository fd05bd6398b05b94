import Xeneva.Ipc.Effects

/-!
# Integrity of the endpoint queues

A queue entry is a raw slot number, so it must keep naming a call that waits at that
very endpoint. The code frees an abandoned call without looking at the queues in three
places: `AuIpcProcessGone` for a client that had already given up, `AuIpcKCallAbandon`
called a second time, and a `REPLY` to a call that was never received. `NoDangling` says
that a step does none of these to a call still queued; every run of such steps keeps the
queues intact.
-/

namespace Xeneva.Ipc
open Base

/-- The entries of the queues in use name calls that wait at that very endpoint. -/
structure QueueInv (st : State) : Prop where
  entry : ∀ i, (st.g_ep i).used = true → ∀ s ∈ (st.g_ep i).queue,
    ((st.g_call s).state = .queued ∨ (st.g_call s).state = .abandoned) ∧
      (st.g_call s).ep = i ∧ (st.g_call s).ep_gen = (st.g_ep i).gen
  nodup : ∀ i, (st.g_ep i).used = true → (st.g_ep i).queue.Nodup
  room : ∀ i, (st.g_ep i).used = true → (st.g_ep i).queue.length ≤ epQueue

theorem QueueInv.unique {st : State} (h : QueueInv st) {i j : EpSlot} {s : CallSlot}
    (hi : (st.g_ep i).used = true) (hj : (st.g_ep j).used = true)
    (hsi : s ∈ (st.g_ep i).queue) (hsj : s ∈ (st.g_ep j).queue) : i = j :=
  Fin.ext ((h.entry i hi s hsi).2.1.symm.trans (h.entry j hj s hsj).2.1)

theorem QueueInv.init (g : ℤ) : QueueInv (State.init g) := by
  constructor <;> intro i hi <;> cases hi

theorem QueueInv.setCall {st : State} (h : QueueInv st) {s : CallSlot} {c : Call}
    (hc : ∀ i, (st.g_ep i).used = true → s ∈ (st.g_ep i).queue →
      (c.state = .queued ∨ c.state = .abandoned) ∧ c.ep = i ∧ c.ep_gen = (st.g_ep i).gen) :
    QueueInv (st.setCall s c) where
  entry i hi t ht := by
    by_cases hts : t = s
    · subst hts
      simpa using hc i hi ht
    · simpa [hts] using h.entry i hi t ht
  nodup := h.nodup
  room := h.room

theorem QueueInv.setEp {st : State} (h : QueueInv st) {i : EpSlot} {e : Endpoint}
    (he : e.used = true → (∀ s ∈ e.queue,
        ((st.g_call s).state = .queued ∨ (st.g_call s).state = .abandoned) ∧
          (st.g_call s).ep = i ∧ (st.g_call s).ep_gen = e.gen) ∧
      e.queue.Nodup ∧ e.queue.length ≤ epQueue) : QueueInv (st.setEp i e) where
  entry j hj s hs := by
    by_cases hji : j = i
    · subst hji
      simp only [setEp_g_ep, if_true, setEp_g_call] at hj hs ⊢
      exact (he hj).1 s hs
    · simp only [setEp_g_ep, hji, if_false, setEp_g_call] at hj hs ⊢
      exact h.entry j hj s hs
  nodup j hj := by
    by_cases hji : j = i
    · subst hji
      simp only [setEp_g_ep, if_true] at hj ⊢
      exact (he hj).2.1
    · simp only [setEp_g_ep, hji, if_false] at hj ⊢
      exact h.nodup j hj
  room j hj := by
    by_cases hji : j = i
    · subst hji
      simp only [setEp_g_ep, if_true] at hj ⊢
      exact (he hj).2.2
    · simp only [setEp_g_ep, hji, if_false] at hj ⊢
      exact h.room j hj

/-- The invariant reads the tables only. -/
theorem QueueInv.congr {st st' : State} (h : QueueInv st) (hep : st'.g_ep = st.g_ep)
    (hcall : st'.g_call = st.g_call) : QueueInv st' := by
  obtain ⟨h1, h2, h3⟩ := h
  constructor <;> simpa only [hep, hcall]

theorem QueueInv.wakeTid {st : State} (h : QueueInv st) (tid : UInt64) :
    QueueInv (wakeTid st tid) := h.congr (wakeTid_g_ep st tid) (wakeTid_g_call st tid)

/-- A call that is in no queue may become anything. -/
theorem QueueInv.setCall_of_not_mem {st : State} (h : QueueInv st) {s : CallSlot} (c : Call)
    (hs : ∀ i, (st.g_ep i).used = true → s ∉ (st.g_ep i).queue) : QueueInv (st.setCall s c) :=
  h.setCall fun i hi hm => absurd hm (hs i hi)

theorem QueueInv.not_mem {st : State} (h : QueueInv st) {s : CallSlot}
    (hs : (st.g_call s).state ≠ .queued ∧ (st.g_call s).state ≠ .abandoned) (i : EpSlot)
    (hi : (st.g_ep i).used = true) : s ∉ (st.g_ep i).queue := fun hm =>
  (h.entry i hi s hm).1.elim hs.1 hs.2

/-- Giving up on a call leaves it where it is queued. -/
theorem QueueInv.abandon {st : State} (h : QueueInv st) (s : CallSlot) :
    QueueInv (st.setCall s { st.g_call s with state := .abandoned }) :=
  h.setCall fun i hi hm => ⟨.inr rfl, (h.entry i hi s hm).2⟩

/-- No call that this client gave up waits at an endpoint which survives the client. -/
def goneSafe (st : State) (proc : AuProcess) : Prop :=
  ∀ s, (st.g_call s).state = .abandoned → (st.g_call s).client_pid = proc.proc_id →
    ∀ i, (st.g_ep i).used = true → s ∈ (st.g_ep i).queue → (st.g_ep i).owner = proc.ptr

/-- Every process that `ipc_prune_dead` removes meets `P` when its turn comes. -/
def pruneSafe (P : State → AuProcess → Prop) (st : State) : Prop :=
  Respects (fun st i => (st.g_ep i).used = true ∧ st.died (st.g_ep i).owner = true →
    P st (ownerOf (st.g_ep i))) pruneOne st (List.finRange 16)

/-- Every process the step runs `AuIpcProcessGone` for meets `P` then. -/
def Removals (P : State → AuProcess → Prop) (st : State) (act : Act) : Prop :=
  (prunes st act = true → pruneSafe P st) ∧
  match act with
  | .processGone proc => P st proc
  | .destroy proc r => ∀ i, epFromHandle st r.handle = some i → (st.g_ep i).owner = proc.ptr →
      P st proc
  | _ => True

/-- The step frees no abandoned call that is still queued at an endpoint in use. -/
def NoDangling (st : State) (act : Act) : Prop :=
  Removals goneSafe st act ∧
  match act with
  | .reply proc _ r => ∀ i, epFromHandle st r.handle = some i → (st.g_ep i).owner = proc.ptr →
      ∀ s, callFromId st r.call_id = some s → (st.g_call s).state = .abandoned →
        s ∉ (st.g_ep i).queue
  | .kCallAbandon id => ∀ s, callFromId st id = some s → (st.g_call s).state = .abandoned →
      ∀ i, (st.g_ep i).used = true → s ∉ (st.g_ep i).queue
  | _ => True

section Decidable
variable (P : State → AuProcess → Prop) [∀ st, DecidablePred (P st)] (st : State)

instance : DecidablePred (goneSafe st) := fun _ =>
  inferInstanceAs (Decidable (∀ _, _ → _ → ∀ _, _ → _ → _))

instance : Decidable (pruneSafe P st) := inferInstanceAs (Decidable (Respects _ _ _ _))

instance : DecidablePred (Removals P st) := fun act =>
  @instDecidableAnd _ _ inferInstance (by cases act <;> infer_instance)

instance : DecidablePred (NoDangling st) := fun act =>
  @instDecidableAnd _ _ inferInstance (by cases act <;> infer_instance)

end Decidable

/-! ## Every operation keeps the queues -/

theorem QueueInv.processGone {st : State} (h : QueueInv st) {proc : AuProcess}
    (hs : goneSafe st proc) : QueueInv (auIpcProcessGone st proc) := by
  have hep : ∀ i, ((auIpcProcessGone st proc).g_ep i).used = true →
      ¬ ownedBy proc (st.g_ep i) ∧ (auIpcProcessGone st proc).g_ep i = st.g_ep i := by
    intro i hi
    obtain ⟨h1, h2⟩ := processGone_g_ep st proc i
    by_cases ho : ownedBy proc (st.g_ep i)
    · rw [(h1 ho).1] at hi
      cases hi
    · exact ⟨ho, h2 ho⟩
  refine ⟨fun i hi s hm => ?_, fun i hi => ?_, fun i hi => ?_⟩
  · obtain ⟨ho, he⟩ := hep i hi
    rw [he] at hi hm ⊢
    obtain ⟨hst, hcep, hgen⟩ := h.entry i hi s hm
    rw [processGone_g_call, orphaned_of_not_owned hcep ho]
    unfold cancelled
    rcases hst with hq | ha
    · split_ifs <;> simp_all
    · have hpid : (st.g_call s).client_pid ≠ proc.proc_id := fun hp =>
        ho ⟨hi, hs s ha hp i hi hm⟩
      simp [ha, hpid, hcep, hgen]
  · obtain ⟨-, he⟩ := hep i hi
    rw [he] at hi ⊢
    exact h.nodup i hi
  · obtain ⟨-, he⟩ := hep i hi
    rw [he] at hi ⊢
    exact h.room i hi

theorem QueueInv.prune {st : State} (h : QueueInv st) (hs : pruneSafe goneSafe st) :
    QueueInv (ipcPruneDead st) := by
  refine Respects.invariant (fun st i h hs => ?_) h hs
  unfold pruneOne
  split_ifs with hd
  · exact h.processGone (hs hd)
  · exact h

theorem QueueInv.pop {st : State} (h : QueueInv st) {i : EpSlot} {s : CallSlot}
    {q : List CallSlot} (hi : (st.g_ep i).used = true) (hq : (st.g_ep i).queue = s :: q) :
    QueueInv (popQueue st i) ∧
      ∀ j, ((popQueue st i).g_ep j).used = true → s ∉ ((popQueue st i).g_ep j).queue := by
  have hnd := h.nodup i hi
  have hlen := h.room i hi
  rw [hq] at hnd hlen
  constructor
  · refine h.setEp fun _ => ⟨fun t ht => ?_, ?_, ?_⟩
    · exact h.entry i hi t (List.mem_of_mem_tail ht)
    · simpa [hq] using (List.nodup_cons.mp hnd).2
    · simp only [hq, List.tail_cons, List.length_cons] at hlen ⊢
      omega
  · intro j hj hm
    by_cases hji : j = i
    · subst hji
      simp only [popQueue_g_ep, if_true, hq, List.tail_cons] at hm
      exact (List.nodup_cons.mp hnd).1 hm
    · simp only [popQueue_g_ep, hji, if_false] at hj hm
      exact hji (h.unique hj hi hm (by simp [hq]))

theorem QueueInv.callFail {st : State} (h : QueueInv st) {s : CallSlot} (why : ℤ)
    (hs : ∀ i, (st.g_ep i).used = true → s ∉ (st.g_ep i).queue) :
    QueueInv (callFail st s why) := by
  unfold Ipc.callFail
  split
  · exact h.setCall_of_not_mem _ hs
  · exact (h.setCall_of_not_mem _ hs).wakeTid _

theorem QueueInv.recvLoop {st : State} (h : QueueInv st) {i : EpSlot}
    (hi : (st.g_ep i).used = true) (cap : ℕ) :
    QueueInv (recvLoop cap i (st.g_ep i).queue.length st).1 := by
  obtain ⟨mid, ⟨hm, hu⟩, ⟨-, hr⟩ | ⟨s, q, hq, -, hr | hr⟩⟩ := recvLoop_rule cap i
    (fun st => QueueInv st ∧ (st.g_ep i).used = true) st
    (fun st s q hP hq _ => ⟨(hP.1.pop hP.2 hq).1.setCall_of_not_mem _ (hP.1.pop hP.2 hq).2,
      by simpa using hP.2⟩) ⟨h, hi⟩
  · rwa [hr]
  · rw [hr]
    exact (hm.pop hu hq).1.callFail _ (hm.pop hu hq).2
  · rw [hr]
    exact (hm.pop hu hq).1.setCall_of_not_mem _ (hm.pop hu hq).2

theorem QueueInv.queueCall {st : State} (h : QueueInv st) {i : EpSlot} {s : CallSlot}
    (hlen : (st.g_ep i).queue.length < epQueue) (hs : (st.g_call s).state = .free)
    (pid uid gid : ℤ) (tid : UInt64) (req : List UInt8) :
    QueueInv (queueCall st i s pid uid gid tid req) := by
  have hnot := h.not_mem (s := s) (by simp [hs])
  refine QueueInv.wakeTid ?_ _
  refine (h.setCall_of_not_mem _ hnot).setEp fun hu => ⟨fun t ht => ?_, ?_, ?_⟩
  · rcases List.mem_append.mp ht with ht | ht
    · have hts : t ≠ s := fun hts => hnot i hu (hts ▸ ht)
      simpa [hts] using h.entry i hu t ht
    · rw [List.mem_singleton] at ht
      simp [ht]
  · exact List.nodup_append.mpr ⟨h.nodup i hu, List.nodup_singleton s, by
      rintro a ha b hb rfl
      rw [List.mem_singleton] at hb
      exact hnot i hu (hb ▸ ha)⟩
  · simp only [List.length_append, List.length_singleton]
    omega

theorem QueueInv.step {st : State} (h : QueueInv st) {act : Act} (hs : NoDangling st act) :
    QueueInv (step st act).1 := by
  obtain ⟨⟨hprune, hgone⟩, hact⟩ := hs
  cases act with
  | create proc r =>
    rcases doCreate_cases st proc r with ⟨_, he⟩ | ⟨hp, ⟨_, he⟩ | ⟨i, e, _, _, he, -, hq, -⟩⟩ <;>
      simp only [Ipc.step, he]
    · exact h
    · exact h.prune (hprune hp)
    · refine ((h.prune (hprune hp)).setEp (i := i) (e := e) fun _ => ?_).congr rfl rfl
      simp [hq]
  | destroy proc r =>
    rcases doDestroy_cases st proc r with ⟨_, he⟩ | ⟨i, _, he, hi, ho⟩ <;> simp only [Ipc.step, he]
    · exact h
    · exact h.processGone (hgone i hi ho)
  | connect proc r =>
    rcases doConnect_cases st proc r with ⟨_, he⟩ | ⟨hp, _, he⟩ <;> simp only [Ipc.step, he]
    · exact h
    · exact h.prune (hprune hp)
  | call proc thr mem r =>
    rcases doCall_cases st proc thr mem r with ⟨_, he, -⟩ | ⟨hp, ⟨_, he, -⟩ | ⟨i, s, _, he, ht, -⟩⟩ <;>
      simp only [Ipc.step, he]
    · exact h
    · exact h.prune (hprune hp)
    · obtain ⟨-, -, hlen, hs⟩ := callTarget_ok ht
      exact (h.prune (hprune hp)).queueCall hlen (freeSlot_spec hs) ..
  | fetch proc r =>
    rcases doFetch_cases st proc r with ⟨_, he, -⟩ | ⟨s, -, -, ⟨he, hst⟩ | ⟨he, -⟩⟩ <;>
      simp only [Ipc.step, he]
    · exact h
    · exact h.setCall_of_not_mem _ (h.not_mem (by rcases hst with hst | hst <;> simp [hst]))
    · exact h.abandon s
  | wait proc thr r =>
    rcases doWait_cases st proc thr r with ⟨_, he⟩ | ⟨i, tid, _, he⟩ <;> simp only [Ipc.step, he]
    · exact h
    · exact h.setEp fun hu => ⟨h.entry i hu, h.nodup i hu, h.room i hu⟩
  | recv proc r =>
    rcases doRecv_cases st proc r with ⟨_, he, -⟩ | ⟨i, hi, -, hr⟩
    · simp only [Ipc.step, he]
      exact h
    · have hl := h.recvLoop (epFromHandle_used hi) r.buf.cap
      rcases hr with ⟨_, _, he, hr⟩ | ⟨_, _, _, _, _, he, hr, -⟩ <;>
      · simp only [Ipc.step, he]
        rwa [hr] at hl
  | reply proc mem r =>
    rcases doReply_cases st proc mem r with
      ⟨_, he, -⟩ | ⟨i, s, hi, ho, hs, hep, -, ⟨he, ha⟩ | ⟨he, ha⟩⟩ <;> simp only [Ipc.step, he]
    · exact h
    · refine h.setCall_of_not_mem _ fun j hj hm => ?_
      have hij : j = i := Fin.ext ((h.entry j hj s hm).2.1.symm.trans hep)
      exact hact i hi ho s hs ha (hij ▸ hm)
    · exact (h.setCall_of_not_mem _ (h.not_mem (by simp [ha]))).wakeTid _
  | kCallBegin name pid uid gid thr mem req =>
    rcases auIpcKCallBegin_cases st name pid uid gid thr mem req with
      ⟨_, he, -⟩ | ⟨hp, ⟨_, he, -⟩ | ⟨i, s, _, he, -, hlen, hs, -⟩⟩ <;> simp only [Ipc.step, he]
    · exact h
    · exact h.prune (hprune hp)
    · exact (h.prune (hprune hp)).queueCall hlen (freeSlot_spec hs) ..
  | kCallPoll id cap =>
    rcases auIpcKCallPoll_cases st id cap with ⟨_, he, -⟩ | ⟨s, he, -, hst⟩ <;>
      simp only [Ipc.step, he]
    · exact h
    · exact h.setCall_of_not_mem _ (h.not_mem (by rcases hst with hst | hst <;> simp [hst]))
  | kCallAbandon id =>
    rcases auIpcKCallAbandon_cases st id with ⟨-, he⟩ | ⟨s, hs, ⟨he, -⟩ | ⟨he, hq, -⟩⟩ <;>
      simp only [Ipc.step, he]
    · exact h
    · exact h.abandon s
    · refine h.setCall_of_not_mem _ fun i hi hm => ?_
      rcases (h.entry i hi s hm).1 with hst | hst
      · exact hq hst
      · exact hact s hs hst i hi hm
  | processGone proc =>
    simp only [Ipc.step]
    exact h.processGone hgone
  | setDied ptr dead =>
    simp only [Ipc.step]
    exact h.congr rfl rfl

/-! ## What is handed out was made there -/

/-- A call that is still waiting has not been touched. -/
def Kept (st st' : State) : Prop :=
  ∀ s, (st'.g_call s).state = .queued → st'.g_call s = st.g_call s

theorem Kept.refl (st : State) : Kept st st := fun _ _ => rfl

theorem Kept.trans {st st' st'' : State} (h : Kept st st') (h' : Kept st' st'') : Kept st st'' := by
  intro s hs
  rw [h' s hs]
  exact h s (h' s hs ▸ hs)

theorem Kept.of_eq {st st' : State} (h : st'.g_call = st.g_call) : Kept st st' :=
  fun s _ => congrFun h s

theorem Kept.setCall (st : State) (s : CallSlot) {c : Call} (hc : c.state ≠ .queued) :
    Kept st (st.setCall s c) := by
  intro t ht
  by_cases hts : t = s
  · subst hts
    simp only [setCall_g_call, if_true] at ht
    exact absurd ht hc
  · simp [hts]

theorem Kept.callFail (st : State) (s : CallSlot) (why : ℤ) : Kept st (callFail st s why) := by
  unfold Ipc.callFail
  split
  · exact .setCall st s (by simp)
  · exact (Kept.setCall st s (c := { st.g_call s with state := .failed, fail := why })
      (by simp)).trans (.of_eq (wakeTid_g_call _ _))

theorem Kept.processGone (st : State) (proc : AuProcess) : Kept st (auIpcProcessGone st proc) := by
  intro s hs
  rw [processGone_g_call] at hs ⊢
  have ho : orphaned st proc (st.g_call s) = st.g_call s ∨
      (orphaned st proc (st.g_call s)).state = .failed := by
    unfold orphaned failedBy
    split_ifs <;> simp
  unfold cancelled at hs ⊢
  split_ifs at hs ⊢
  rcases ho with ho | ho
  · exact ho
  · rw [ho] at hs
    cases hs

theorem Kept.prune (st : State) : Kept st (ipcPruneDead st) := by
  refine run_invariant (fun t i ht => ?_) _ (Kept.refl st)
  unfold pruneOne
  split_ifs
  · exact ht.trans (.processGone t _)
  · exact ht

/-- Every waiting call is pending, in the history, at its endpoint. -/
def Pending (R : Recorded) : Prop :=
  ∀ s, (R.1.g_call s).state = .queued → ∃ i : EpSlot, (R.1.g_call s).ep = i ∧
    pendingAt s R.2 = some (i, (R.1.g_call s).ep_gen)

/-- A step that neither makes a call nor hands one out. -/
theorem Pending.quiet {R : Recorded} (h : Pending R) {st' : State} {ev : IpcEvent}
    (hk : Kept R.1 st') (hm : made ev = none) (hh : handed ev = none) :
    Pending (st', ev :: R.2) := by
  intro s hs
  have he := hk s hs
  obtain ⟨i, h1, h2⟩ := h s (he ▸ hs)
  refine ⟨i, by rw [he]; exact h1, ?_⟩
  simp only [pendingAt, hm, hh, reduceCtorEq, if_false, he, h2]

/-- A step that fills slot `t` with a new call for endpoint `i`. -/
theorem Pending.made {R : Recorded} (h : Pending R) {ev : IpcEvent} {i : EpSlot} {t : CallSlot}
    {pid uid gid : ℤ} {tid : UInt64} {req : List UInt8} (hpre : ev.pre = R.1)
    (hm : Ipc.made ev = some t) (hh : handed ev = none) (ht : target ev = some i) :
    Pending (queueCall (ipcPruneDead R.1) i t pid uid gid tid req, ev :: R.2) := by
  intro s hs
  by_cases hst : s = t
  · subst hst
    refine ⟨i, by simp [queueCall], ?_⟩
    simp [pendingAt, hm, ht, hpre, queueCall]
  · have hcall : (queueCall (ipcPruneDead R.1) i t pid uid gid tid req).g_call s =
        (ipcPruneDead R.1).g_call s := by simp [queueCall, hst]
    rw [hcall] at hs ⊢
    have he := Kept.prune R.1 s hs
    obtain ⟨j, h1, h2⟩ := h s (he ▸ hs)
    refine ⟨j, by rw [he]; exact h1, ?_⟩
    have hm' : Ipc.made ev ≠ some s := by simp [hm, Ne.symm hst]
    simp only [pendingAt, hm', hh, reduceCtorEq, if_false, he, h2]

/-- What the loop of `do_recv` hands out was at the head of the endpoint's queue, waiting
and untouched. -/
theorem recvLoop_handed {st : State} (h : QueueInv st) {i : EpSlot}
    (hi : (st.g_ep i).used = true) {cap : ℕ} {st' : State} {status : ℤ} {s : CallSlot} {c : Call}
    (hr : recvLoop cap i (st.g_ep i).queue.length st = (st', status, some (s, c))) :
    status = ipcOk ∧ (st.g_call s).state = .queued ∧ c = st.g_call s ∧ (st.g_call s).ep = i ∧
      (st.g_call s).ep_gen = (st.g_ep i).gen ∧ (st'.g_call s).state = .serving ∧
      Kept st st' := by
  obtain ⟨mid, ⟨hm, hu, hg, hk⟩, ⟨-, hr'⟩ | ⟨t, q, hq, hna, hr' | hr'⟩⟩ :=
    recvLoop_rule cap i
      (fun t => QueueInv t ∧ (t.g_ep i).used = true ∧ (t.g_ep i).gen = (st.g_ep i).gen ∧
        Kept st t) st
      (fun t s q hP hq _ => ⟨(hP.1.pop hP.2.1 hq).1.setCall_of_not_mem _ (hP.1.pop hP.2.1 hq).2,
        by simpa using hP.2.1, by simpa using hP.2.2.1,
        hP.2.2.2.trans (.setCall (popQueue t i) s (by simp))⟩)
      ⟨h, hi, rfl, .refl st⟩ <;> rw [hr'] at hr
  · cases hr
  · cases hr
  · cases hr
    obtain ⟨hst, hep, hgen⟩ := hm.entry i hu s (by simp [hq])
    have hqd : (mid.g_call s).state = .queued := hst.resolve_right hna
    have he := hk s hqd
    refine ⟨rfl, he ▸ hqd, he, he ▸ hep, ?_, by simp, hk.trans (.setCall (popQueue mid i) s ?_)⟩
    · rw [← he, hgen, hg]
    · simp

theorem recvLoop_none {st : State} {i : EpSlot} {cap : ℕ} {st' : State} {status : ℤ}
    (hr : recvLoop cap i (st.g_ep i).queue.length st = (st', status, none)) :
    status ≠ ipcOk ∧ Kept st st' := by
  obtain ⟨mid, hk, ⟨-, hr'⟩ | ⟨t, q, -, -, hr' | hr'⟩⟩ :=
    recvLoop_rule cap i (fun t => Kept st t) st
      (fun t s q hP _ _ => hP.trans (.setCall (popQueue t i) s (by simp))) (.refl st) <;>
    rw [hr'] at hr <;> cases hr
  · exact ⟨by decide, hk⟩
  · exact ⟨by decide, hk.trans (.callFail (popQueue mid i) t _)⟩

theorem Pending.step {R : Recorded} (h : Pending R) (hq : QueueInv R.1) (act : Act) :
    Pending (recorded Ipc.step R act) := by
  obtain ⟨st, hist⟩ := R
  unfold recorded
  cases act with
  | create proc r =>
    refine h.quiet ?_ rfl rfl
    rcases doCreate_cases st proc r with ⟨_, he⟩ | ⟨-, ⟨_, he⟩ | ⟨i, e, _, _, he, -⟩⟩ <;>
      simp only [Ipc.step, he]
    · exact .refl st
    · exact .prune st
    · exact (Kept.prune st).trans (.of_eq rfl)
  | destroy proc r =>
    refine h.quiet ?_ rfl rfl
    rcases doDestroy_cases st proc r with ⟨_, he⟩ | ⟨i, _, he, -⟩ <;> simp only [Ipc.step, he]
    · exact .refl st
    · exact .processGone st proc
  | connect proc r =>
    refine h.quiet ?_ rfl rfl
    rcases doConnect_cases st proc r with ⟨_, he⟩ | ⟨-, _, he⟩ <;> simp only [Ipc.step, he]
    · exact .refl st
    · exact .prune st
  | call proc thr mem r =>
    rcases doCall_cases st proc thr mem r with
      ⟨_, he, hrc⟩ | ⟨-, ⟨_, he, hrc⟩ | ⟨i, s, _, he, ht, h1, h2, h3⟩⟩ <;> simp only [Ipc.step, he]
    · exact h.quiet (.refl st) (by simp [Ipc.made, hrc]) rfl
    · exact h.quiet (.prune st) (by simp [Ipc.made, hrc]) rfl
    · exact h.made rfl (by simp [Ipc.made, h1, h2, h3]) rfl (callTarget_ok ht).1
  | fetch proc r =>
    refine h.quiet ?_ rfl rfl
    rcases doFetch_cases st proc r with ⟨_, he, -⟩ | ⟨s, -, -, ⟨he, -⟩ | ⟨he, -⟩⟩ <;>
      simp only [Ipc.step, he]
    · exact .refl st
    · exact .setCall st s (by simp)
    · exact .setCall st s (by simp)
  | wait proc thr r =>
    refine h.quiet ?_ rfl rfl
    rcases doWait_cases st proc thr r with ⟨_, he⟩ | ⟨i, tid, _, he⟩ <;> simp only [Ipc.step, he]
    · exact .refl st
    · exact .of_eq rfl
  | recv proc r =>
    rcases doRecv_cases st proc r with
      ⟨_, he, hrc⟩ | ⟨i, hi, -, ⟨_, _, he, hr⟩ | ⟨_, _, s, c, out, he, hr, h1, h2, h3, -⟩⟩ <;>
      simp only [Ipc.step, he]
    · refine h.quiet (.refl st) rfl ?_
      rcases hrc with hrc | hrc <;> simp [handed, hrc]
    · obtain ⟨hs, hk⟩ := recvLoop_none hr
      exact h.quiet hk rfl (by simp [handed, hs])
    · obtain ⟨hok, -, -, -, -, hsv, hk⟩ := recvLoop_handed hq (epFromHandle_used hi) hr
      intro t ht
      have hts : t ≠ s := by
        rintro rfl
        rw [hsv] at ht
        cases ht
      have hh : handed ⟨st, .recv proc r, out⟩ = some s := by simp [handed, h1, h2, h3, hok]
      have hkt := hk t ht
      obtain ⟨j, h4, h5⟩ := h t (hkt ▸ ht)
      refine ⟨j, hkt ▸ h4, ?_⟩
      simp only [pendingAt, hh, Ipc.made, reduceCtorEq, if_false, Option.some.injEq, Ne.symm hts,
        hkt, h5]
  | reply proc mem r =>
    refine h.quiet ?_ rfl rfl
    rcases doReply_cases st proc mem r with ⟨_, he, -⟩ | ⟨i, s, -, -, -, -, -, ⟨he, -⟩ | ⟨he, -⟩⟩ <;>
      simp only [Ipc.step, he]
    · exact .refl st
    · exact .setCall st s (by simp)
    · exact (Kept.setCall st s (c := { st.g_call s with
        state := .done, resp := r.resp.bytes, server_status := r.server_status })
        (by simp)).trans (.of_eq (wakeTid_g_call _ _))
  | kCallBegin name pid uid gid thr mem req =>
    rcases auIpcKCallBegin_cases st name pid uid gid thr mem req with
      ⟨_, he, hrc⟩ | ⟨-, ⟨_, he, hrc⟩ | ⟨i, s, _, he, hi, -, -, h1, h2⟩⟩ <;> simp only [Ipc.step, he]
    · exact h.quiet (.refl st) (by simp [Ipc.made, hrc]) rfl
    · exact h.quiet (.prune st) (by simp [Ipc.made, hrc]) rfl
    · exact h.made rfl (by simp [Ipc.made, h1, h2]) rfl hi
  | kCallPoll id cap =>
    refine h.quiet ?_ rfl rfl
    rcases auIpcKCallPoll_cases st id cap with ⟨_, he, -⟩ | ⟨s, he, -⟩ <;> simp only [Ipc.step, he]
    · exact .refl st
    · exact .setCall st s (by simp)
  | kCallAbandon id =>
    refine h.quiet ?_ rfl rfl
    rcases auIpcKCallAbandon_cases st id with ⟨-, he⟩ | ⟨s, -, ⟨he, -⟩ | ⟨he, -⟩⟩ <;>
      simp only [Ipc.step, he]
    · exact .refl st
    · exact .setCall st s (by simp)
    · exact .setCall st s (by simp)
  | processGone proc =>
    refine h.quiet ?_ rfl rfl
    simp only [Ipc.step]
    exact .processGone st proc
  | setDied ptr dead => exact h.quiet (.of_eq rfl) rfl rfl

/-- The queues of the endpoints in use hold waiting calls of that very endpoint, and no
slot stands in them twice. -/
structure QueueIntegrity (st : State) : Prop where
  entry : ∀ i, (st.g_ep i).used = true → ∀ s ∈ (st.g_ep i).queue,
    ((st.g_call s).state = .queued ∨ (st.g_call s).state = .abandoned) ∧
      (st.g_call s).ep = i ∧ (st.g_call s).ep_gen = (st.g_ep i).gen
  nodup : ∀ i, (st.g_ep i).used = true → (st.g_ep i).queue.Nodup
  disjoint : ∀ i j, (st.g_ep i).used = true → (st.g_ep j).used = true → i ≠ j →
    (st.g_ep i).queue.Disjoint (st.g_ep j).queue

/-- Whatever a `RECV` hands out next is a call made to the endpoint it names, by the
server that owns it, and not handed out since it was made. -/
def RecvIntegrity (R : Recorded) : Prop :=
  ∀ proc r s, handed ⟨R.1, .recv proc r, (step R.1 (.recv proc r)).2⟩ = some s →
    ∃ i, epFromHandle R.1 r.handle = some i ∧ (R.1.g_ep i).owner = proc.ptr ∧
      pendingAt s R.2 = some (i, (R.1.g_ep i).gen)

theorem QueueInv.integrity {st : State} (h : QueueInv st) : QueueIntegrity st where
  entry := h.entry
  nodup := h.nodup
  disjoint _ _ hi hj hij _ hsi hsj := hij (h.unique hi hj hsi hsj)

theorem Pending.recv {R : Recorded} (h : Pending R) (hq : QueueInv R.1) : RecvIntegrity R := by
  intro proc r s hs
  rcases doRecv_cases R.1 proc r with
    ⟨_, he, hrc⟩ | ⟨i, hi, ho, ⟨_, _, he, hr⟩ | ⟨_, _, t, c, out, he, hr, h1, h2, h3, -⟩⟩ <;>
    simp only [Ipc.step, he] at hs
  · rcases hrc with hrc | hrc <;> simp [handed, hrc] at hs
  · simp [handed, (recvLoop_none hr).1] at hs
  · obtain ⟨hok, hqd, -, hep, hgen, -⟩ := recvLoop_handed hq (epFromHandle_used hi) hr
    have hts : t = s := by simpa [handed, h1, h2, h3, hok] using hs
    subst hts
    obtain ⟨j, h4, h5⟩ := h t hqd
    have hji : j = i := Fin.ext (h4.symm.trans hep)
    exact ⟨i, hi, ho, by rw [h5, hji, hgen]⟩

/-- In a run that frees no abandoned call still queued, every queue stays intact and every
server is handed its own calls, each once. -/
theorem exec_queueIntegrity (daemonsGid : ℤ) (acts : List Act)
    (h : Respects (fun R act => NoDangling R.1 act) (recorded step)
      (State.init daemonsGid, []) acts) :
    QueueIntegrity (exec daemonsGid acts).1 ∧ RecvIntegrity (exec daemonsGid acts) := by
  have hinv : QueueInv (exec daemonsGid acts).1 ∧ Pending (exec daemonsGid acts) :=
    h.invariant (I := fun R => QueueInv R.1 ∧ Pending R)
      (fun R act hR hok => ⟨hR.1.step hok, hR.2.step hR.1 act⟩)
      ⟨QueueInv.init daemonsGid, fun s hs => by cases hs⟩
  exact ⟨hinv.1.integrity, hinv.2.recv hinv.1⟩

def srvDaemon : AuProcess := { ptr := 0x1000, proc_id := 3, gid := 7 }
def logDaemon : AuProcess := { ptr := 0x2000, proc_id := 4, gid := 7 }
def client : AuProcess := { ptr := 0x3000, proc_id := 5 }
def other : AuProcess := { ptr := 0x4000, proc_id := 6 }

/-- A call that is made, served, answered and fetched. -/
def servedRun : List Act :=
  [.create srvDaemon ⟨0x10000, [0x73], 0⟩,
    .call client none true ⟨0x10000, makeId 1 0, 10, ⟨0x20000, [1, 2]⟩⟩,
    .recv srvDaemon ⟨0x10000, makeId 1 0, ⟨0x20000, 64⟩⟩,
    .reply srvDaemon true ⟨0x10000, makeId 1 0, makeId 1 0, ⟨0x20000, [3]⟩, 0⟩,
    .fetch client ⟨0x10000, makeId 1 0, ⟨0x20000, 64⟩⟩]

theorem exec_queueIntegrity_served :
    QueueIntegrity (exec 7 servedRun).1 ∧ RecvIntegrity (exec 7 servedRun) :=
  exec_queueIntegrity 7 servedRun (by decide +kernel)

/-- A client times out on a call to `srv` and dies; the next call, to `log`, takes the slot
that `srv` still has in its queue. -/
def danglingRun : List Act :=
  [.create srvDaemon ⟨0x10000, [0x73], 0⟩,
    .create logDaemon ⟨0x10000, [0x6c], 0⟩,
    .call client none true ⟨0x10000, makeId 1 0, 10, ⟨0x20000, [1, 2]⟩⟩,
    .fetch client ⟨0x10000, makeId 1 0, ⟨0x20000, 64⟩⟩,
    .processGone client,
    .call other none true ⟨0x10000, makeId 2 1, 10, ⟨0x20000, [9]⟩⟩]

/-- The queue of `srv` names a call made to `log`, and `srv` is handed it. -/
theorem not_exec_queueIntegrity :
    ¬ QueueIntegrity (exec 7 danglingRun).1 ∧ ¬ RecvIntegrity (exec 7 danglingRun) := by
  constructor
  · intro h
    have hep := (h.entry 0 (by decide +kernel) 0 (by decide +kernel)).2.1
    revert hep
    decide +kernel
  · intro h
    obtain ⟨i, hi, -, hp⟩ := h srvDaemon ⟨0x10000, makeId 1 0, ⟨0x20000, 64⟩⟩ 0 (by decide +kernel)
    have h0 : epFromHandle (exec 7 danglingRun).1 (makeId 1 0) = some 0 := by decide +kernel
    rw [h0] at hi
    cases hi
    revert hp
    decide +kernel

end Xeneva.Ipc
