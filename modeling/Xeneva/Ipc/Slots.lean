import Xeneva.Ipc.Queue

/-!
# No call slot is lost

A call in use waits at an endpoint, is being served there, or holds an answer its client
has not taken yet. An abandoned call comes back only through its server, but the removal
of an endpoint fails the waiting and the served calls and passes over the abandoned ones.
`NoOrphans` says that a removal meets no such call; with the intact queues of
`NoDangling` no slot is lost then, and once everybody has left all of them are free.
-/

namespace Xeneva.Ipc
open Base

/-- The pid a request made a call for. -/
def clientPid (act : Act) : Option ℤ :=
  match act with
  | .call proc .. => some proc.proc_id
  | .kCallBegin _ pid .. => some pid
  | _ => none

/-- The event ends the interest of client `pid` in the call `id`: it fetched or polled it,
gave it up, or is gone. -/
def settles (id : Word) (pid : ℤ) (ev : IpcEvent) : Bool :=
  match ev.act with
  | .fetch proc r => r.call_id == id && proc.proc_id == pid && ev.out.rc == ipcOk
  | .kCallPoll id' _ => id' == id && ev.out.rc != ipcETimeout
  | .kCallAbandon id' => id' == id
  | .processGone proc => proc.proc_id == pid
  | _ => false

/-- The last call made in slot `s` was made for `pid`, who has not settled it since. -/
def Owed (pid : ℤ) (s : CallSlot) (h : List IpcEvent) : Prop :=
  ∃ h₂ ev h₁, h = h₂ ++ ev :: h₁ ∧ made ev = some s ∧ clientPid ev.act = some pid ∧
    ∀ ev' ∈ h₂, made ev' ≠ some s ∧ settles ev.out.call_id pid ev' = false

/-- The process the last call made in slot `s` was handed to, if it was. -/
def receivedBy (s : CallSlot) : List IpcEvent → Option ℕ
  | [] => none
  | ev :: h =>
    if made ev = some s then none
    else if handed ev = some s then
      match ev.act with
      | .recv proc _ => some proc.ptr
      | _ => none
    else receivedBy s h

/-- The process with this address created an endpoint and is not gone since. -/
def Serves (ptr : ℕ) (h : List IpcEvent) : Prop :=
  ∃ h₂ ev h₁, h = h₂ ++ ev :: h₁ ∧ (∃ proc r, ev.act = .create proc r ∧ proc.ptr = ptr) ∧
    ∀ ev' ∈ h₂, ∀ proc, ev'.act = .processGone proc → proc.ptr ≠ ptr

/-- A call waits in the queue of its endpoint or was handed to the endpoint's owner. -/
def Attached (g_ep : EpSlot → Endpoint) (c : Call) (h : List IpcEvent) (s : CallSlot) : Prop :=
  ∃ i, (g_ep i).used = true ∧ c.ep = i ∧ c.ep_gen = (g_ep i).gen ∧
    (c.state ≠ .serving ∧ s ∈ (g_ep i).queue ∨
      c.state ≠ .queued ∧ receivedBy s h = some (g_ep i).owner)

/-- What holds of the call `c` in slot `s`. -/
structure SlotOk (g_ep : EpSlot → Endpoint) (c : Call) (h : List IpcEvent) (s : CallSlot) :
    Prop where
  gen : c.gen = if c.state = .free then 0 else 1
  owed : c.state ≠ .free → c.state ≠ .abandoned → Owed c.client_pid s h
  attached : c.state = .queued ∨ c.state = .serving ∨ c.state = .abandoned →
    Attached g_ep c h s

structure SlotsInv (st : State) (h : List IpcEvent) : Prop where
  slot : ∀ s, SlotOk st.g_ep (st.g_call s) h s
  owner : ∀ i, (st.g_ep i).used = true → Serves (st.g_ep i).owner h
  ids : ∀ ev ∈ h, ∀ s, made ev = some s → ev.out.call_id = makeId 1 s

theorem SlotOk.free (g_ep : EpSlot → Endpoint) (h : List IpcEvent) (s : CallSlot) :
    SlotOk g_ep {} h s where
  gen := rfl
  owed h := absurd rfl h
  attached h := by rcases h with h | h | h <;> cases h

theorem SlotsInv.init (g : ℤ) : SlotsInv (State.init g) [] where
  slot s := .free _ _ s
  owner i hi := by cases hi
  ids ev hev := by cases hev

theorem callFromId_live {st : State} {h : List IpcEvent} {s : CallSlot}
    (hs : SlotOk st.g_ep (st.g_call s) h s) (hf : (st.g_call s).state ≠ .free) :
    callFromId st (makeId 1 s) = some s := by
  have hgen : (makeId 1 s).sshiftRight 8 = (st.g_call s).gen := by
    rw [hs.gen, if_neg hf, makeId_one_sshiftRight]
  simp only [callFromId, idSlot_makeId, s.isLt, Fin.eta, hf, hgen, dite_true, ne_eq,
    not_false_eq_true, and_self, if_true]

section Append
variable {h : List IpcEvent} {ev : IpcEvent} {s : CallSlot}

theorem Owed.append {pid : ℤ} (ho : Owed pid s h)
    (hids : ∀ ev ∈ h, ∀ s, made ev = some s → ev.out.call_id = makeId 1 s)
    (hm : made ev ≠ some s) (hs : settles (makeId 1 s) pid ev = false) :
    Owed pid s (ev :: h) := by
  obtain ⟨h₂, ev₀, h₁, rfl, hmade, hpid, hlater⟩ := ho
  have hid := hids ev₀ (by simp) s hmade
  refine ⟨ev :: h₂, ev₀, h₁, rfl, hmade, hpid, ?_⟩
  rintro ev' (_ | ⟨_, hev'⟩)
  · exact ⟨hm, hid ▸ hs⟩
  · exact hlater ev' hev'

theorem Serves.append {ptr : ℕ} (hs : Serves ptr h)
    (hg : ∀ proc, ev.act = .processGone proc → proc.ptr ≠ ptr) : Serves ptr (ev :: h) := by
  obtain ⟨h₂, ev₀, h₁, rfl, hc, hlater⟩ := hs
  refine ⟨ev :: h₂, ev₀, h₁, rfl, hc, ?_⟩
  rintro ev' (_ | ⟨_, hev'⟩)
  · exact hg
  · exact hlater ev' hev'

theorem SlotOk.append {g_ep : EpSlot → Endpoint} {c : Call} (hc : SlotOk g_ep c h s)
    (hids : ∀ ev ∈ h, ∀ s, made ev = some s → ev.out.call_id = makeId 1 s)
    (hm : made ev ≠ some s) (hh : handed ev ≠ some s)
    (hs : c.state ≠ .free → c.state ≠ .abandoned →
      settles (makeId 1 s) c.client_pid ev = false) : SlotOk g_ep c (ev :: h) s where
  gen := hc.gen
  owed hf ha := (hc.owed hf ha).append hids hm (hs hf ha)
  attached hst := by
    obtain ⟨i, hu, hep, hgen, hq⟩ := hc.attached hst
    exact ⟨i, hu, hep, hgen, by simpa only [receivedBy, hm, hh, if_false] using hq⟩

theorem SlotsInv.append {st : State} (hi : SlotsInv st h) (hm : made ev = none)
    (hh : handed ev = none)
    (hs : ∀ s, (st.g_call s).state ≠ .free → (st.g_call s).state ≠ .abandoned →
      settles (makeId 1 s) (st.g_call s).client_pid ev = false)
    (hg : ∀ i, (st.g_ep i).used = true → ∀ proc, ev.act = .processGone proc →
      proc.ptr ≠ (st.g_ep i).owner) : SlotsInv st (ev :: h) where
  slot s := (hi.slot s).append hi.ids (by simp [hm]) (by simp [hh]) (hs s)
  owner i hu := (hi.owner i hu).append (hg i hu)
  ids := by
    rintro ev' (_ | ⟨_, hev'⟩) s hs
    · rw [hm] at hs
      cases hs
    · exact hi.ids ev' hev' s hs

end Append

section Tables
variable {st : State} {h : List IpcEvent}

theorem SlotsInv.congr {st' : State} (hi : SlotsInv st h) (hep : st'.g_ep = st.g_ep)
    (hcall : st'.g_call = st.g_call) : SlotsInv st' h where
  slot s := by simpa only [hep, hcall] using hi.slot s
  owner i hu := by
    rw [hep] at hu ⊢
    exact hi.owner i hu
  ids := hi.ids

theorem SlotsInv.setCall (hi : SlotsInv st h) {s : CallSlot} {c : Call}
    (hc : SlotOk st.g_ep c h s) : SlotsInv (st.setCall s c) h where
  slot t := by
    by_cases hts : t = s
    · subst hts
      simpa using hc
    · simpa [hts] using hi.slot t
  owner := hi.owner
  ids := hi.ids

theorem SlotOk.setEp {g_ep g_ep' : EpSlot → Endpoint} {c : Call} {s : CallSlot}
    (hc : SlotOk g_ep c h s)
    (he : ∀ i, (g_ep i).used = true → c.ep = i → (g_ep' i).used = true ∧
      (g_ep' i).gen = (g_ep i).gen ∧ (g_ep' i).owner = (g_ep i).owner ∧
      (s ∈ (g_ep i).queue → s ∈ (g_ep' i).queue)) : SlotOk g_ep' c h s where
  gen := hc.gen
  owed := hc.owed
  attached hst := by
    obtain ⟨i, hu, hep, hgen, hq⟩ := hc.attached hst
    obtain ⟨hu', hgen', ho', hq'⟩ := he i hu hep
    refine ⟨i, hu', hep, hgen.trans hgen'.symm, ?_⟩
    rw [ho']
    exact hq.imp (fun hq => ⟨hq.1, hq' hq.2⟩) id

theorem SlotsInv.callFree (hi : SlotsInv st h) (s : CallSlot) : SlotsInv (callFree st s) h :=
  hi.setCall (.free _ _ s)

theorem SlotOk.abandon {g_ep : EpSlot → Endpoint} {c : Call} {s : CallSlot}
    (hc : SlotOk g_ep c h s)
    (hst : c.state = .queued ∨ c.state = .serving ∨ c.state = .abandoned) :
    SlotOk g_ep { c with state := .abandoned } h s where
  gen := by
    have hf : c.state ≠ .free := by rcases hst with hst | hst | hst <;> simp [hst]
    simpa [hf] using hc.gen
  owed _ ha := absurd rfl ha
  attached _ := by
    obtain ⟨i, hu, hep, hgen, hq⟩ := hc.attached hst
    exact ⟨i, hu, hep, hgen, hq.imp (fun hq => ⟨by simp, hq.2⟩) fun hq => ⟨by simp, hq.2⟩⟩

/-- A waiting or a served call may be answered or failed. -/
theorem SlotOk.answered {g_ep : EpSlot → Endpoint} {c c' : Call} {s : CallSlot}
    (hc : SlotOk g_ep c h s) (hst : c.state = .queued ∨ c.state = .serving)
    (hgen : c'.gen = c.gen) (hpid : c'.client_pid = c.client_pid)
    (hst' : c'.state = .done ∨ c'.state = .failed) (g_ep' : EpSlot → Endpoint) :
    SlotOk g_ep' c' h s where
  gen := by
    have hf : c.state ≠ .free := by rcases hst with hst | hst <;> simp [hst]
    have hf' : c'.state ≠ .free := by rcases hst' with hst | hst <;> simp [hst]
    rw [hgen, hc.gen, if_neg hf, if_neg hf']
  owed _ _ := hpid ▸ hc.owed (by rcases hst with hst | hst <;> simp [hst])
    (by rcases hst with hst | hst <;> simp [hst])
  attached ha := by rcases hst' with hst | hst <;> simp [hst] at ha

theorem SlotOk.cancelled {g_ep : EpSlot → Endpoint} {c : Call} {s : CallSlot}
    (hc : SlotOk g_ep c h s) (proc : AuProcess) : SlotOk g_ep (cancelled proc c) h s := by
  unfold Ipc.cancelled
  split_ifs with h1 h2
  · exact hc
  · exact hc.abandon (by tauto)
  · exact .free _ _ s

end Tables

/-- Every abandoned call at an endpoint of the process is the process's own. -/
def orphanSafe (st : State) (proc : AuProcess) : Prop :=
  ∀ i, ownedBy proc (st.g_ep i) → ∀ s, (st.g_call s).state = .abandoned →
    (st.g_call s).ep = i → (st.g_call s).ep_gen = (st.g_ep i).gen →
    (st.g_call s).client_pid = proc.proc_id

instance (st : State) : DecidablePred (orphanSafe st) := fun _ =>
  inferInstanceAs (Decidable (∀ _, _ → ∀ _, _ → _ → _ → _))

/-- The step removes no endpoint that an abandoned call is still attached to. -/
def NoOrphans : State → Act → Prop := Removals orphanSafe

instance (st : State) : DecidablePred (NoOrphans st) :=
  inferInstanceAs (DecidablePred (Removals orphanSafe st))

/-! ## Every operation keeps the slots -/

section Operations
variable {st : State} {h : List IpcEvent}

theorem SlotOk.orphaned {proc : AuProcess} (ho : orphanSafe st proc) {s : CallSlot}
    (hs : SlotOk st.g_ep (st.g_call s) h s) :
    (st.g_call s).state = .abandoned ∧ (st.g_call s).client_pid = proc.proc_id ∨
      SlotOk (auIpcProcessGone st proc).g_ep (orphaned st proc (st.g_call s)) h s := by
  by_cases hact : (st.g_call s).state = .queued ∨ (st.g_call s).state = .serving ∨
      (st.g_call s).state = .abandoned
  · obtain ⟨i, hu, hep, hgen, -⟩ := hs.attached hact
    by_cases hown : ownedBy proc (st.g_ep i)
    · rcases or_assoc.mpr hact with hqs | ha
      · rw [orphaned_of_owned hep hgen hown hqs]
        exact .inr (hs.answered hqs (by rfl) (by rfl) (.inr (by rfl)) _)
      · exact .inl ⟨ha, ho i hown s ha hep hgen⟩
    · rw [orphaned_of_not_owned hep hown]
      refine .inr (hs.setEp fun j hj hcj => ?_)
      have hji : j = i := Fin.ext (hcj.symm.trans hep)
      rw [hji, (processGone_g_ep st proc i).2 hown]
      exact ⟨hu, rfl, rfl, id⟩
  · have hn := not_or.mp hact
    rw [orphaned_of_state hn.1 (not_or.mp hn.2).1]
    exact .inr ⟨hs.gen, hs.owed, fun ha => absurd ha hact⟩

theorem SlotsInv.processGone (hi : SlotsInv st h) {proc : AuProcess} (ho : orphanSafe st proc) :
    SlotsInv (auIpcProcessGone st proc) h where
  slot s := by
    rw [processGone_g_call]
    rcases (hi.slot s).orphaned ho with ⟨ha, hp⟩ | hs
    · rw [orphaned_of_state (by simp [ha]) (by simp [ha])]
      have hc : Ipc.cancelled proc (st.g_call s) = {} := by simp [Ipc.cancelled, ha, hp]
      exact hc ▸ .free _ _ s
    · exact hs.cancelled proc
  owner i hu := by
    obtain ⟨h1, h2⟩ := processGone_g_ep st proc i
    by_cases hown : ownedBy proc (st.g_ep i)
    · rw [(h1 hown).1] at hu
      cases hu
    · rw [h2 hown] at hu ⊢
      exact hi.owner i hu
  ids := hi.ids

theorem SlotsInv.prune (hi : SlotsInv st h) (hs : pruneSafe orphanSafe st) :
    SlotsInv (ipcPruneDead st) h := by
  refine Respects.invariant (I := fun st => SlotsInv st h) (fun st i hi hs => ?_) hi hs
  unfold pruneOne
  split_ifs with hd
  · exact hi.processGone (hs hd)
  · exact hi

/-- Taking a call off a queue leaves the other calls attached. -/
theorem SlotsInv.pop (hi : SlotsInv st h) {i : EpSlot} {s : CallSlot} {q : List CallSlot}
    (hq : (st.g_ep i).queue = s :: q) {c : Call} (hc : SlotOk (popQueue st i).g_ep c h s) :
    SlotsInv ((popQueue st i).setCall s c) h where
  slot t := by
    by_cases hts : t = s
    · subst hts
      simpa using hc
    · have ht : SlotOk (popQueue st i).g_ep (st.g_call t) h t := (hi.slot t).setEp fun j hu _ => by
        by_cases hji : j = i
        · subst hji
          simpa [hq, hts] using hu
        · simpa [hji] using hu
      simpa [hts] using ht
  owner j hj := by
    by_cases hji : j = i
    · subst hji
      simp only [setCall_g_ep, popQueue_g_ep, if_true] at hj ⊢
      exact hi.owner j hj
    · simp only [setCall_g_ep, popQueue_g_ep, hji, if_false] at hj ⊢
      exact hi.owner j hj
  ids := hi.ids

/-- The loop of `do_recv`: the slots are kept, but for the one handed out. -/
theorem SlotsInv.recvLoop (hi : SlotsInv st h) (hq : QueueInv st) {i : EpSlot}
    (hu : (st.g_ep i).used = true) (cap : ℕ) :
    match recvLoop cap i (st.g_ep i).queue.length st with
    | (st', _, none) => SlotsInv st' h
    | (st', _, some (s, c)) => ∃ mid, SlotsInv mid h ∧ QueueInv mid ∧
        (mid.g_ep i).used = true ∧ (mid.g_ep i).owner = (st.g_ep i).owner ∧
        (mid.g_call s).state = .queued ∧ c = mid.g_call s ∧
        (∃ q, (mid.g_ep i).queue = s :: q) ∧
        st' = (popQueue mid i).setCall s { mid.g_call s with state := .serving } := by
  obtain ⟨mid, ⟨hm, hmq, hmu, hmo⟩, ⟨-, hr⟩ | ⟨s, q, hs, hna, hr⟩⟩ := recvLoop_rule cap i
    (fun t => SlotsInv t h ∧ QueueInv t ∧ (t.g_ep i).used = true ∧
      (t.g_ep i).owner = (st.g_ep i).owner) st
    (fun t s q hP hs _ => ⟨hP.1.pop hs (.free _ _ s),
      (hP.2.1.pop hP.2.2.1 hs).1.setCall_of_not_mem _ (hP.2.1.pop hP.2.2.1 hs).2,
      by simpa using hP.2.2.1, by simpa using hP.2.2.2⟩) ⟨hi, hq, hu, rfl⟩
  · rw [hr]
    exact hm
  · have hqd : (mid.g_call s).state = .queued :=
      ((hmq.entry i hmu s (by simp [hs])).1).resolve_right hna
    rcases hr with hr | hr <;> rw [hr]
    · have hne : ((popQueue mid i).g_call s).state ≠ .abandoned := by simp [hqd]
      have hfail : Ipc.callFail (popQueue mid i) s ipcETooBig =
          wakeTid ((popQueue mid i).setCall s
            { mid.g_call s with state := .failed, fail := ipcETooBig })
            (mid.g_call s).client_tid := by
        rw [Ipc.callFail, if_neg hne]
        rfl
      rw [hfail]
      exact (hm.pop hs ((hm.slot s).answered (.inl hqd) (by rfl) (by rfl) (.inr (by rfl)) _)).congr
        (wakeTid_g_ep _ _) (wakeTid_g_call _ _)
    · exact ⟨mid, hm, hmq, hmu, hmo, hqd, rfl, ⟨q, hs⟩, rfl⟩

/-- A step that fills the free slot `s` with a new call for endpoint `i`. -/
theorem SlotsInv.made (hi : SlotsInv st h) {i : EpSlot} {s : CallSlot} {ev : IpcEvent}
    {pid uid gid : ℤ} {tid : UInt64} {req : List UInt8} (hu : (st.g_ep i).used = true)
    (hs : (st.g_call s).state = .free)
    (hid : ev.out.call_id = makeId ((st.g_call s).gen + 1) s) (hm : Ipc.made ev = some s)
    (hp : clientPid ev.act = some pid) (hh : handed ev = none)
    (hset : ∀ id pid, settles id pid ev = false) (hg : ∀ proc, ev.act ≠ .processGone proc) :
    SlotsInv (queueCall st i s pid uid gid tid req) (ev :: h) where
  slot t := by
    by_cases hts : t = s
    · subst hts
      have hc : (queueCall st i t pid uid gid tid req).g_call t =
          { state := .queued, gen := (st.g_call t).gen + 1, ep := i, ep_gen := (st.g_ep i).gen,
            client_pid := pid, client_uid := uid, client_gid := gid, client_tid := tid,
            req := req } := by simp [queueCall]
      rw [hc]
      refine ⟨?_, fun _ _ => ⟨[], ev, h, rfl, hm, hp, by simp⟩, fun _ => ⟨i, ?_⟩⟩
      · simp [(hi.slot t).gen, hs]
      · simp [queueCall, hu]
    · have ht : SlotOk st.g_ep (st.g_call t) (ev :: h) t :=
        (hi.slot t).append hi.ids (by simpa [hm] using Ne.symm hts) (by simp [hh])
          fun _ _ => hset _ _
      have ht' : SlotOk (queueCall st i s pid uid gid tid req).g_ep (st.g_call t) (ev :: h) t := by
        refine ht.setEp fun j hj _ => ?_
        by_cases hji : j = i
        · subst hji
          simpa [queueCall] using ⟨hj, Or.inl⟩
        · simpa [queueCall, hji] using hj
      simpa [queueCall, hts] using ht'
  owner j hj := by
    have he : ((queueCall st i s pid uid gid tid req).g_ep j).used = (st.g_ep j).used ∧
        ((queueCall st i s pid uid gid tid req).g_ep j).owner = (st.g_ep j).owner := by
      by_cases hji : j = i <;> simp [queueCall, hji]
    rw [he.1] at hj
    rw [he.2]
    exact (hi.owner j hj).append fun proc h => absurd h (hg proc)
  ids := by
    rintro ev' (_ | ⟨_, hev'⟩) t ht
    · cases hm.symm.trans ht
      rw [hid, (hi.slot s).gen, if_pos hs]
      rfl
    · exact hi.ids ev' hev' t ht

/-- A step that hands the head `s` of the queue of endpoint `i` to the endpoint's owner. -/
theorem SlotsInv.handed (hi : SlotsInv st h) {i : EpSlot} {s : CallSlot} {ev : IpcEvent}
    {q : List CallSlot} {proc : AuProcess} {r : IpcRecv} (hu : (st.g_ep i).used = true)
    (hc : (st.g_call s).state = .queued) (hep : (st.g_call s).ep = i)
    (hgen : (st.g_call s).ep_gen = (st.g_ep i).gen) (hq : (st.g_ep i).queue = s :: q)
    (hact : ev.act = .recv proc r) (hh : Ipc.handed ev = some s)
    (ho : (st.g_ep i).owner = proc.ptr) :
    SlotsInv ((popQueue st i).setCall s { st.g_call s with state := .serving }) (ev :: h) := by
  have hm : Ipc.made ev = none := by simp [Ipc.made, hact]
  have hset : ∀ id pid, settles id pid ev = false := by simp [settles, hact]
  refine SlotsInv.pop ⟨fun t => ?_, fun j hj => ?_, ?_⟩ hq ⟨?_, fun _ _ => ?_, fun _ => ⟨i, ?_⟩⟩
  · by_cases hts : t = s
    · subst hts
      refine ⟨(hi.slot t).gen, fun hf ha => ?_, fun _ => ⟨i, hu, hep, hgen, .inl ?_⟩⟩
      · exact ((hi.slot t).owed hf ha).append hi.ids (by simp [hm]) (hset _ _)
      · simp [hc, hq]
    · exact (hi.slot t).append hi.ids (by simp [hm]) (by simpa [hh] using Ne.symm hts)
        fun _ _ => hset _ _
  · exact (hi.owner j hj).append (by simp [hact])
  · rintro ev' (_ | ⟨_, hev'⟩) t ht
    · rw [hm] at ht
      cases ht
    · exact hi.ids ev' hev' t ht
  · have := (hi.slot s).gen
    simpa [hc] using this
  · exact ((hi.slot s).owed (by simp [hc]) (by simp [hc])).append hi.ids (by simp [hm]) (hset _ _)
  · simpa [hu, hep, hgen, receivedBy, hm, hh, hact] using ho.symm

/-- A step that leaves slot `s` free or abandoned and settles no other call. -/
theorem SlotsInv.appendAt (hi : SlotsInv st h) {s : CallSlot} {ev : IpcEvent}
    (hs : (st.g_call s).state = .free ∨ (st.g_call s).state = .abandoned)
    (hm : Ipc.made ev = none) (hh : Ipc.handed ev = none)
    (hset : ∀ t pid, t ≠ s → settles (makeId 1 t) pid ev = false)
    (hg : ∀ proc, ev.act ≠ .processGone proc) : SlotsInv st (ev :: h) := by
  refine hi.append hm hh (fun t hf ha => hset t _ fun hts => ?_) fun _ _ proc hp => absurd hp (hg proc)
  rw [hts] at hf ha
  exact hs.elim hf ha

theorem SlotsInv.quiet (hi : SlotsInv st h) {ev : IpcEvent} (hm : Ipc.made ev = none)
    (hh : Ipc.handed ev = none) (hset : ∀ id pid, settles id pid ev = false)
    (hg : ∀ proc, ev.act ≠ .processGone proc) : SlotsInv st (ev :: h) :=
  hi.append hm hh (fun _ _ _ => hset _ _) fun _ _ proc hp => absurd hp (hg proc)

theorem ne_makeId_of_slot {id : Word} {s t : CallSlot} (hs : callFromId st id = some s)
    (hts : t ≠ s) : id ≠ makeId 1 t := by
  rintro rfl
  have := (callFromId_slot hs).1
  rw [slotOf_makeId] at this
  exact hts (Option.some.inj this)

/-- A step that puts a new endpoint into an unused slot. -/
theorem SlotsInv.created (hi : SlotsInv st h) {i : EpSlot} {e : Endpoint} {proc : AuProcess}
    {r : IpcCreate} {ev : IpcEvent} (hu : (st.g_ep i).used = false) (he : e.owner = proc.ptr)
    (hact : ev.act = .create proc r) : SlotsInv (st.setEp i e) (ev :: h) := by
  have hq : SlotsInv st (ev :: h) := hi.quiet (by simp [Ipc.made, hact])
    (by simp [Ipc.handed, hact]) (by simp [settles, hact]) (by simp [hact])
  refine ⟨fun s => (hq.slot s).setEp fun j hj _ => ?_, fun j hj => ?_, hq.ids⟩
  · have hji : j ≠ i := by
      rintro rfl
      rw [hu] at hj
      cases hj
    simpa [hji] using hj
  · by_cases hji : j = i
    · subst hji
      rw [setEp_g_ep, if_pos rfl, he]
      exact ⟨[], ev, h, rfl, ⟨proc, r, hact, rfl⟩, by simp⟩
    · rw [setEp_g_ep, if_neg hji] at hj ⊢
      exact hq.owner j hj

theorem SlotsInv.gone (hi : SlotsInv st h) {proc : AuProcess} (ho : orphanSafe st proc)
    {ev : IpcEvent} (hact : ev.act = .processGone proc) :
    SlotsInv (auIpcProcessGone st proc) (ev :: h) := by
  refine (hi.processGone ho).append (by simp [Ipc.made, hact]) (by simp [Ipc.handed, hact])
    (fun s hf ha => ?_) fun i hu proc' hp => ?_
  · rw [processGone_g_call] at hf ha ⊢
    have hpid : (Ipc.cancelled proc (Ipc.orphaned st proc (st.g_call s))).client_pid ≠
        proc.proc_id := by
      intro hp
      unfold Ipc.cancelled at hf ha hp
      split_ifs at hf ha hp <;> simp_all
    simpa [settles, hact] using Ne.symm hpid
  · cases hact.symm.trans hp
    obtain ⟨h1, h2⟩ := processGone_g_ep st proc i
    rintro hown
    by_cases ho : ownedBy proc (st.g_ep i)
    · rw [(h1 ho).1] at hu
      cases hu
    · rw [h2 ho] at hu hown
      exact ho ⟨hu, hown.symm⟩

end Operations

theorem SlotsInv.step {R : Recorded} (hi : SlotsInv R.1 R.2) (hq : QueueInv R.1) {act : Act}
    (hs : NoDangling R.1 act) (ho : NoOrphans R.1 act) :
    SlotsInv (recorded Ipc.step R act).1 (recorded Ipc.step R act).2 := by
  obtain ⟨st, hist⟩ := R
  obtain ⟨hprune, hgone⟩ := ho
  simp only [recorded_fst, recorded_snd]
  cases act with
  | create proc r =>
    rcases doCreate_cases st proc r with
      ⟨_, he⟩ | ⟨hp, ⟨_, he⟩ | ⟨i, e, _, _, he, hu, -, hown⟩⟩ <;> simp only [Ipc.step, he]
    · exact hi.quiet rfl rfl (fun _ _ => rfl) (by simp)
    · exact (hi.prune (hprune hp)).quiet rfl rfl (fun _ _ => rfl) (by simp)
    · exact ((hi.prune (hprune hp)).created hu hown rfl).congr rfl rfl
  | destroy proc r =>
    rcases doDestroy_cases st proc r with ⟨_, he⟩ | ⟨i, _, he, hep, hown⟩ <;>
      simp only [Ipc.step, he]
    · exact hi.quiet rfl rfl (fun _ _ => rfl) (by simp)
    · exact (hi.processGone (hgone i hep hown)).quiet rfl rfl (fun _ _ => rfl) (by simp)
  | connect proc r =>
    rcases doConnect_cases st proc r with ⟨_, he⟩ | ⟨hp, _, he⟩ <;> simp only [Ipc.step, he]
    · exact hi.quiet rfl rfl (fun _ _ => rfl) (by simp)
    · exact (hi.prune (hprune hp)).quiet rfl rfl (fun _ _ => rfl) (by simp)
  | call proc thr mem r =>
    rcases doCall_cases st proc thr mem r with
      ⟨_, he, hrc⟩ | ⟨hp, ⟨_, he, hrc⟩ | ⟨i, s, out, he, ht, h1, h2, h3⟩⟩ <;>
      simp only [Ipc.step, he]
    · exact hi.quiet (by simp [Ipc.made, hrc]) rfl (fun _ _ => rfl) (by simp)
    · exact (hi.prune (hprune hp)).quiet (by simp [Ipc.made, hrc]) rfl (fun _ _ => rfl) (by simp)
    · obtain ⟨hep, -, -, hfree⟩ := callTarget_ok ht
      exact (hi.prune (hprune hp)).made (epFromHandle_used hep) (freeSlot_spec hfree) h3
        (by simp [Ipc.made, h1, h2, h3]) rfl rfl (fun _ _ => rfl) (by simp)
  | fetch proc r =>
    rcases doFetch_cases st proc r with ⟨out, he, hno⟩ | ⟨s, hs, hpid, hst⟩
    · simp only [Ipc.step, he]
      refine hi.append rfl rfl (fun s hf _ => ?_) (by simp)
      rcases hno with hno | ⟨-, hno⟩
      · simp [settles, hno]
      · by_contra hset
        simp only [settles, Bool.and_eq_true, beq_iff_eq, Bool.not_eq_false] at hset
        exact hno s (hset.1.1 ▸ callFromId_live (hi.slot s) hf) hset.1.2.symm
    · have hset : ∀ out t pid, t ≠ s →
          settles (makeId 1 t) pid ⟨st, .fetch proc r, out⟩ = false := by
        intro out t pid hts
        simp only [settles, beq_false_of_ne (ne_makeId_of_slot hs hts), Bool.false_and]
      rcases hst with ⟨he, -⟩ | ⟨he, hnd, hnf⟩ <;> simp only [Ipc.step, he]
      · exact (hi.callFree s).appendAt (s := s) (by simp) rfl rfl (hset _) (by simp)
      · have hact : (st.g_call s).state = .queued ∨ (st.g_call s).state = .serving ∨
            (st.g_call s).state = .abandoned := by
          have hf := (callFromId_slot hs).2.1
          cases hc : (st.g_call s).state <;> simp_all
        exact (hi.setCall ((hi.slot s).abandon hact)).appendAt (s := s) (by simp) rfl rfl (hset _)
          (by simp)
  | wait proc thr r =>
    rcases doWait_cases st proc thr r with ⟨_, he⟩ | ⟨i, tid, _, he⟩ <;> simp only [Ipc.step, he]
    · exact hi.quiet rfl rfl (fun _ _ => rfl) (by simp)
    · have hw : SlotsInv (st.setEp i { st.g_ep i with waiter_tid := tid }) hist := by
        refine ⟨fun s => (hi.slot s).setEp fun j hj _ => ?_, fun j hj => ?_, hi.ids⟩
        · by_cases hji : j = i
          · subst hji
            simpa using hj
          · simpa [hji] using hj
        · by_cases hji : j = i
          · subst hji
            simpa using hi.owner j (by simpa using hj)
          · simpa [hji] using hi.owner j (by simpa [hji] using hj)
      exact hw.quiet rfl rfl (fun _ _ => rfl) (by simp)
  | recv proc r =>
    rcases doRecv_cases st proc r with ⟨_, he, hno⟩ | ⟨i, hep, hown, hr⟩
    · simp only [Ipc.step, he]
      exact hi.quiet rfl (by rcases hno with h | h <;> simp [Ipc.handed, h]) (fun _ _ => rfl)
        (by simp)
    · have hl := hi.recvLoop hq (epFromHandle_used hep) r.buf.cap
      rcases hr with ⟨st', status, he, hr⟩ | ⟨st', status, s, c, out, he, hr, h1, h2, h3, -⟩ <;>
        simp only [Ipc.step, he] <;> rw [hr] at hl
      · exact SlotsInv.quiet hl rfl (by simp [Ipc.handed, (recvLoop_none hr).1]) (fun _ _ => rfl)
          (by simp)
      · obtain ⟨mid, hm, hmq, hmu, hmo, hqd, -, ⟨q, hqs⟩, rfl⟩ := hl
        obtain ⟨hok, -⟩ := recvLoop_handed hq (epFromHandle_used hep) hr
        obtain ⟨-, hce, hcg⟩ := hmq.entry i hmu s (by simp [hqs])
        exact hm.handed hmu hqd hce hcg hqs rfl (by simp [Ipc.handed, h1, h2, h3, hok])
          (hmo.trans hown)
  | reply proc mem r =>
    rcases doReply_cases st proc mem r with
      ⟨_, he, -⟩ | ⟨i, s, -, -, -, -, -, ⟨he, -⟩ | ⟨he, hsv⟩⟩ <;> simp only [Ipc.step, he]
    · exact hi.quiet rfl rfl (fun _ _ => rfl) (by simp)
    · exact (hi.callFree s).quiet rfl rfl (fun _ _ => rfl) (by simp)
    · have hd : SlotsInv (st.setCall s { st.g_call s with
          state := .done, resp := r.resp.bytes, server_status := r.server_status }) hist :=
        hi.setCall ((hi.slot s).answered (.inr hsv) (by rfl) (by rfl) (.inl (by rfl)) _)
      exact (hd.congr (wakeTid_g_ep _ _) (wakeTid_g_call _ _)).quiet rfl rfl (fun _ _ => rfl)
        (by simp)
  | kCallBegin name pid uid gid thr mem req =>
    rcases auIpcKCallBegin_cases st name pid uid gid thr mem req with
      ⟨_, he, hrc⟩ | ⟨hp, ⟨_, he, hrc⟩ | ⟨i, s, out, he, hep, -, hfree, h1, h2⟩⟩ <;>
      simp only [Ipc.step, he]
    · exact hi.quiet (by simp [Ipc.made, hrc]) rfl (fun _ _ => rfl) (by simp)
    · exact (hi.prune (hprune hp)).quiet (by simp [Ipc.made, hrc]) rfl (fun _ _ => rfl) (by simp)
    · have hu : ((ipcPruneDead st).g_ep i).used = true := by
        have := findEp_spec hep
        simp only [Bool.and_eq_true] at this
        exact this.1
      exact (hi.prune (hprune hp)).made hu (freeSlot_spec hfree) h2 (by simp [Ipc.made, h1, h2])
        rfl rfl (fun _ _ => rfl) (by simp)
  | kCallPoll id cap =>
    rcases auIpcKCallPoll_cases st id cap with ⟨out, he, hno⟩ | ⟨s, he, hs, -⟩ <;>
      simp only [Ipc.step, he]
    · refine hi.append rfl rfl (fun s hf _ => ?_) (by simp)
      rcases hno with ⟨-, hno⟩ | hno
      · by_contra hset
        simp only [settles, Bool.and_eq_true, beq_iff_eq, Bool.not_eq_false] at hset
        rw [hset.1, callFromId_live (hi.slot s) hf] at hno
        cases hno
      · simp [settles, hno]
    · exact (hi.callFree s).appendAt (s := s) (by simp) rfl rfl
        (fun t pid hts => by
          simp only [settles, beq_false_of_ne (ne_makeId_of_slot hs hts), Bool.false_and])
        (by simp)
  | kCallAbandon id =>
    rcases auIpcKCallAbandon_cases st id with ⟨hno, he⟩ | ⟨s, hs, hst⟩
    · simp only [Ipc.step, he]
      refine hi.append rfl rfl (fun s hf _ => ?_) (by simp)
      by_contra hset
      simp only [settles, beq_iff_eq, Bool.not_eq_false] at hset
      rw [hset, callFromId_live (hi.slot s) hf] at hno
      cases hno
    · have hset : ∀ out t pid, t ≠ s →
          settles (makeId 1 t) pid ⟨st, .kCallAbandon id, out⟩ = false := by
        intro out t pid hts
        exact beq_false_of_ne (ne_makeId_of_slot hs hts)
      rcases hst with ⟨he, hqs⟩ | ⟨he, -, -⟩ <;> simp only [Ipc.step, he]
      · exact (hi.setCall ((hi.slot s).abandon (hqs.imp_right .inl))).appendAt (s := s) (by simp) rfl
          rfl (hset _) (by simp)
      · exact (hi.callFree s).appendAt (s := s) (by simp) rfl rfl (hset _) (by simp)
  | processGone proc =>
    simp only [Ipc.step]
    exact hi.gone hgone rfl
  | setDied ptr dead =>
    simp only [Ipc.step]
    have hc : SlotsInv { st with died := Function.update st.died ptr dead } hist :=
      hi.congr rfl rfl
    exact hc.quiet rfl rfl (fun _ _ => rfl) (by simp)

/-! ## Runs -/

/-- Where a call in use is: with a client who still wants it, in the queue of an endpoint,
or with the server it was handed to. -/
def Accounted (R : Recorded) (s : CallSlot) : Prop :=
  Owed (R.1.g_call s).client_pid s R.2 ∨
  (∃ i, (R.1.g_ep i).used = true ∧ s ∈ (R.1.g_ep i).queue ∧
    ((R.1.g_call s).state = .queued ∨ (R.1.g_call s).state = .abandoned)) ∨
  ∃ i, (R.1.g_ep i).used = true ∧ (R.1.g_call s).ep = i ∧
    (R.1.g_call s).ep_gen = (R.1.g_ep i).gen ∧
    ((R.1.g_call s).state = .serving ∨ (R.1.g_call s).state = .abandoned) ∧
    receivedBy s R.2 = some (R.1.g_ep i).owner

/-- The process that makes the request. -/
def actor : Act → Option AuProcess
  | .create proc _ | .destroy proc _ | .connect proc _ | .call proc .. | .fetch proc _
  | .wait proc .. | .recv proc _ | .reply proc .. => some proc
  | _ => none

def goneFor (proc : AuProcess) : Act → Bool
  | .processGone p => p.ptr == proc.ptr && p.proc_id == proc.proc_id
  | _ => false

/-- Whoever took part is gone after its last request. The history is latest first. -/
def Departed (h : List IpcEvent) : Prop :=
  ∀ n, ∀ hn : n < h.length, ∀ proc ∈ actor h[n].act,
    ∃ m, ∃ hm : m < n, goneFor proc h[m].act = true

/-- The kernel is done with the call: it polled it to its end or gave it up. -/
def finishes (id : Word) (ev : IpcEvent) : Bool :=
  match ev.act with
  | .kCallPoll id' _ => id' == id && ev.out.rc != ipcETimeout
  | .kCallAbandon id' => id' == id
  | _ => false

def KernelDone (h : List IpcEvent) : Prop :=
  ∀ n, ∀ hn : n < h.length, actor h[n].act = none → made h[n] ≠ none →
    ∃ m, ∃ hm : m < n, finishes h[n].out.call_id h[m] = true

theorem SlotsInv.accounted {R : Recorded} (hi : SlotsInv R.1 R.2) {s : CallSlot}
    (hf : (R.1.g_call s).state ≠ .free) : Accounted R s := by
  by_cases ha : (R.1.g_call s).state = .abandoned
  · obtain ⟨i, hu, hep, hgen, hq⟩ := (hi.slot s).attached (.inr (.inr ha))
    rcases hq with hq | hq
    · exact .inr (.inl ⟨i, hu, hq.2, .inr ha⟩)
    · exact .inr (.inr ⟨i, hu, hep, hgen, .inr ha, hq.2⟩)
  · exact .inl ((hi.slot s).owed hf ha)

theorem getElem_of_split (h₂ h₁ : List IpcEvent) (ev : IpcEvent) :
    ∃ hn : h₂.length < (h₂ ++ ev :: h₁).length, (h₂ ++ ev :: h₁)[h₂.length] = ev :=
  ⟨by simp, by simp⟩

theorem Departed.of_split {h₂ h₁ : List IpcEvent} {ev : IpcEvent}
    (hd : Departed (h₂ ++ ev :: h₁)) {proc : AuProcess} (ha : actor ev.act = some proc) :
    ∃ ev' ∈ h₂, ∃ p, ev'.act = .processGone p ∧ p.ptr = proc.ptr ∧ p.proc_id = proc.proc_id := by
  obtain ⟨hn, he⟩ := getElem_of_split h₂ h₁ ev
  have hd := hd h₂.length hn proc
  rw [he] at hd
  obtain ⟨m, hm, hg⟩ := hd ha
  rw [List.getElem_append_left hm] at hg
  refine ⟨h₂[m], List.getElem_mem hm, ?_⟩
  unfold goneFor at hg
  split at hg
  · next p hp => exact ⟨p, hp, by simpa using hg⟩
  · cases hg

theorem KernelDone.of_split {h₂ h₁ : List IpcEvent} {ev : IpcEvent}
    (hk : KernelDone (h₂ ++ ev :: h₁)) (ha : actor ev.act = none) (hm : made ev ≠ none) :
    ∃ ev' ∈ h₂, finishes ev.out.call_id ev' = true := by
  obtain ⟨hn, he⟩ := getElem_of_split h₂ h₁ ev
  have hk := hk h₂.length hn
  rw [he] at hk
  obtain ⟨m, hm', hg⟩ := hk ha hm
  rw [List.getElem_append_left hm'] at hg
  exact ⟨h₂[m], List.getElem_mem hm', hg⟩

theorem settles_of_finishes {id : Word} {ev : IpcEvent} (pid : ℤ) (h : finishes id ev = true) :
    settles id pid ev = true := by
  unfold finishes at h
  unfold settles
  split at h <;> simp_all

/-- Nobody is owed anything once everybody has left. -/
theorem not_owed {h : List IpcEvent} (hd : Departed h) (hk : KernelDone h) (pid : ℤ)
    (s : CallSlot) : ¬ Owed pid s h := by
  rintro ⟨h₂, ev, h₁, rfl, hm, hp, hlater⟩
  cases hact : actor ev.act with
  | some proc =>
    obtain ⟨ev', hev', p, hg, -, hpid⟩ := hd.of_split hact
    have hproc : proc.proc_id = pid := by
      unfold clientPid at hp
      split at hp
      · next he => rw [he] at hact; cases hact; exact Option.some.inj hp
      · next he => rw [he] at hact; cases hact
      · cases hp
    have := (hlater ev' hev').2
    simp [settles, hg, hpid, hproc] at this
  | none =>
    obtain ⟨ev', hev', hf⟩ := hk.of_split hact (by simp [hm])
    have := (hlater ev' hev').2
    rw [settles_of_finishes pid hf] at this
    cases this

theorem not_serves {h : List IpcEvent} (hd : Departed h) (ptr : ℕ) : ¬ Serves ptr h := by
  rintro ⟨h₂, ev, h₁, rfl, ⟨proc, r, he, rfl⟩, hlater⟩
  have ha : actor ev.act = some proc := by rw [he]; rfl
  obtain ⟨ev', hev', p, hg, hptr, -⟩ := hd.of_split ha
  exact hlater ev' hev' p hg hptr

theorem SlotsInv.all_free {R : Recorded} (hi : SlotsInv R.1 R.2) (hd : Departed R.2)
    (hk : KernelDone R.2) (s : CallSlot) : (R.1.g_call s).state = .free := by
  by_contra hf
  have ha : (R.1.g_call s).state = .abandoned := by
    by_contra ha
    exact not_owed hd hk _ s ((hi.slot s).owed hf ha)
  obtain ⟨i, hu, -⟩ := (hi.slot s).attached (.inr (.inr ha))
  exact not_serves hd _ (hi.owner i hu)

/-- In a run that leaves no stale queue entry and removes no endpoint under an abandoned
call, every slot in use is accounted for, and all are free once everybody has left. -/
theorem exec_slotsKept (daemonsGid : ℤ) (acts : List Act)
    (h : Respects (fun R act => NoDangling R.1 act ∧ NoOrphans R.1 act) (recorded step)
      (State.init daemonsGid, []) acts) :
    (∀ s, ((exec daemonsGid acts).1.g_call s).state ≠ .free →
        Accounted (exec daemonsGid acts) s) ∧
      (Departed (exec daemonsGid acts).2 → KernelDone (exec daemonsGid acts).2 →
        ∀ s, ((exec daemonsGid acts).1.g_call s).state = .free) := by
  have hinv : QueueInv (exec daemonsGid acts).1 ∧
      SlotsInv (exec daemonsGid acts).1 (exec daemonsGid acts).2 :=
    h.invariant (I := fun R => QueueInv R.1 ∧ SlotsInv R.1 R.2)
      (fun R act hR hok => ⟨hR.1.step hok.1, hR.2.step hR.1 hok.1 hok.2⟩)
      ⟨QueueInv.init daemonsGid, SlotsInv.init daemonsGid⟩
  exact ⟨fun s => hinv.2.accounted, hinv.2.all_free⟩

section Decidable
variable (h : List IpcEvent)

instance : Decidable (Departed h) :=
  inferInstanceAs (Decidable (∀ n, ∀ hn : n < h.length, ∀ proc ∈ actor h[n].act,
    ∃ m, ∃ hm : m < n, goneFor proc h[m].act = true))

instance : Decidable (KernelDone h) :=
  inferInstanceAs (Decidable (∀ n, ∀ hn : n < h.length, actor h[n].act = none →
    made h[n] ≠ none → ∃ m, ∃ hm : m < n, finishes h[n].out.call_id h[m] = true))

end Decidable

/-- The call is served, its client gives up, the server answers all the same, and both leave. -/
def partedRun : List Act :=
  [.create srvDaemon ⟨0x10000, [0x73], 0⟩,
    .call client none true ⟨0x10000, makeId 1 0, 10, ⟨0x20000, [1, 2]⟩⟩,
    .recv srvDaemon ⟨0x10000, makeId 1 0, ⟨0x20000, 64⟩⟩,
    .processGone client,
    .reply srvDaemon true ⟨0x10000, makeId 1 0, makeId 1 0, ⟨0x20000, [3]⟩, 0⟩,
    .processGone srvDaemon]

theorem exec_slotsKept_parted : Departed (exec 7 partedRun).2 ∧ KernelDone (exec 7 partedRun).2 ∧
    ∀ s, ((exec 7 partedRun).1.g_call s).state = .free := by
  have hd : Departed (exec 7 partedRun).2 := by decide +kernel
  have hk : KernelDone (exec 7 partedRun).2 := by decide +kernel
  exact ⟨hd, hk, (exec_slotsKept 7 partedRun (by decide +kernel)).2 hd hk⟩

/-- The client leaves while its call is served, then the server leaves. -/
def leakingRun : List Act :=
  [.create srvDaemon ⟨0x10000, [0x73], 0⟩,
    .call client none true ⟨0x10000, makeId 1 0, 10, ⟨0x20000, [1, 2]⟩⟩,
    .recv srvDaemon ⟨0x10000, makeId 1 0, ⟨0x20000, 64⟩⟩,
    .processGone client,
    .processGone srvDaemon]

/-- Nobody is left, and the slot is neither free nor accounted for. -/
theorem not_exec_slotsKept : Departed (exec 7 leakingRun).2 ∧ KernelDone (exec 7 leakingRun).2 ∧
    ((exec 7 leakingRun).1.g_call 0).state ≠ .free ∧ ¬ Accounted (exec 7 leakingRun) 0 := by
  have hd : Departed (exec 7 leakingRun).2 := by decide +kernel
  have hk : KernelDone (exec 7 leakingRun).2 := by decide +kernel
  have hu : ∀ i, ((exec 7 leakingRun).1.g_ep i).used = false := by decide +kernel
  refine ⟨hd, hk, by decide +kernel, ?_⟩
  rintro (ho | ⟨i, hi, -⟩ | ⟨i, hi, -⟩)
  · exact not_owed hd hk _ _ ho
  · rw [hu i] at hi
    cases hi
  · rw [hu i] at hi
    cases hi

end Xeneva.Ipc
