import Xeneva.Ipc.Queue

/-!
# Replies and the calls they answer

`call_free` clears the generation with the rest of the slot, so a slot hands out the same
id again for its next call. `FreshSlots` says that a step makes no call in a slot that
held one before in the run; then an id names one call for ever, and what a client or the
kernel fetches is the one answer the server gave to that call.
-/

namespace Xeneva.Ipc
open Base

theorem slotOf_some {id : Word} {s : CallSlot} (h : slotOf id = some s) : idSlot id = s := by
  unfold slotOf at h
  split_ifs at h
  exact congrArg Fin.val (Option.some.inj h)

theorem eq_makeId_one {id : Word} {s : CallSlot} (hs : slotOf id = some s)
    (hg : id.sshiftRight 8 = 1) : id = makeId 1 s := by
  have hlow : id.toNat % 256 = s := (idSlot_eq id).symm.trans (slotOf_some hs)
  have hlow' : (makeId 1 s).toNat % 256 = s := (idSlot_eq _).symm.trans (idSlot_makeId 1 s)
  have hhigh : ∀ w : Word, w.sshiftRight 8 = 1 → w.toNat / 256 = 1 := by
    intro w hw
    have h1 : w.toInt / 256 = 1 := by
      have := congrArg BitVec.toInt hw
      rwa [BitVec.toInt_sshiftRight, Int.shiftRight_eq_div_pow] at this
    have h2 := BitVec.toInt_eq_toNat_cond w
    have h3 := w.isLt
    split at h2 <;> omega
  have h1 := hhigh id hg
  have h2 := hhigh _ (makeId_one_sshiftRight s)
  apply BitVec.eq_of_toNat_eq
  omega

/-- The id of the call an accepted `REPLY` is for. -/
def replied (ev : IpcEvent) : Option Word :=
  match ev.act with
  | .reply _ _ r => if ev.out.rc = ipcOk then some r.call_id else none
  | _ => none

/-- The call `id` was handed to the process with this address. -/
def Received (id : Word) (ptr : ℕ) (h : List IpcEvent) : Prop :=
  ∃ ev ∈ h, (∃ proc r, ev.act = .recv proc r ∧ proc.ptr = ptr) ∧ handed ev ≠ none ∧
    ev.out.call_id = id

/-- One `REPLY` was accepted for the call `id`, with these bytes and this status. It came
from the owner of endpoint `i` of generation `gen`, who had received the call before. -/
def Answered (id : Word) (h : List IpcEvent) (i : ℕ) (gen : Word) (resp : List UInt8)
    (server_status : ℤ) : Prop :=
  ∃ h₂ ev h₁ proc mem r j, h = h₂ ++ ev :: h₁ ∧ ev.act = .reply proc mem r ∧
    replied ev = some id ∧ (∀ ev' ∈ h₂, replied ev' ≠ some id) ∧
    (∀ ev' ∈ h₁, replied ev' ≠ some id) ∧ Received id proc.ptr h₁ ∧
    epFromHandle ev.pre r.handle = some j ∧ i = j ∧ gen = (ev.pre.g_ep j).gen ∧
    (ev.pre.g_ep j).owner = proc.ptr ∧ resp = r.resp.bytes ∧ server_status = r.server_status

/-- The event made the call in slot `s`, for endpoint `i` of generation `gen`. -/
def MadeFor (s : CallSlot) (i : ℕ) (gen : Word) (ev : IpcEvent) : Prop :=
  made ev = some s ∧ ev.out.call_id = makeId 1 s ∧ ∃ j, target ev = some j ∧ i = j ∧
    gen = ((ipcPruneDead ev.pre).g_ep j).gen

/-- The slot holds the only call ever made in it, and was never free since. -/
def Unfreed (s : CallSlot) : List IpcEvent → Prop
  | [] => False
  | ev :: h => made ev = some s ∧ s ∉ h.filterMap made ∨
      made ev ≠ some s ∧ (ev.pre.g_call s).state ≠ .free ∧ Unfreed s h

theorem Unfreed.mem {s : CallSlot} {h : List IpcEvent} (hu : Unfreed s h) :
    s ∈ h.filterMap made := by
  induction h with
  | nil => exact hu.elim
  | cons ev h ih =>
    rcases hu with ⟨hm, -⟩ | ⟨-, -, hu⟩
    · exact List.mem_filterMap.mpr ⟨ev, by simp, hm⟩
    · obtain ⟨ev', hev', hm⟩ := List.mem_filterMap.mp (ih hu)
      exact List.mem_filterMap.mpr ⟨ev', by simp [hev'], hm⟩

theorem Unfreed.since {s : CallSlot} {h₂ h₁ : List IpcEvent} {ev : IpcEvent}
    (hm : made ev = some s) (hu : Unfreed s (h₂ ++ ev :: h₁)) :
    ∀ ev' ∈ h₂, made ev' ≠ some s ∧ (ev'.pre.g_call s).state ≠ .free := by
  induction h₂ with
  | nil => simp
  | cons e h₂ ih =>
    rcases hu with ⟨-, hno⟩ | ⟨hne, hf, hu⟩
    · exact absurd (List.mem_filterMap.mpr ⟨ev, by simp, hm⟩) hno
    · rintro ev' (_ | ⟨_, hev'⟩)
      · exact ⟨hne, hf⟩
      · exact ih hu ev' hev'

/-- What holds of a call whose id is still good. -/
structure LiveCall (g_ep : EpSlot → Endpoint) (c : Call) (h : List IpcEvent) (s : CallSlot) :
    Prop where
  live : c.state ≠ .free
  unfreed : Unfreed s h
  madeFor : ∃ ev ∈ h, MadeFor s c.ep c.ep_gen ev
  unanswered : c.state ≠ .done → ∀ ev ∈ h, replied ev ≠ some (makeId 1 s)
  serving : c.state = .serving → ∃ i, (g_ep i).used = true ∧ c.ep = i ∧
    c.ep_gen = (g_ep i).gen ∧ Received (makeId 1 s) (g_ep i).owner h
  done : c.state = .done → Answered (makeId 1 s) h c.ep c.ep_gen c.resp c.server_status
  failed : c.state = .failed → c.fail ≠ ipcOk

structure ReplySlot (g_ep : EpSlot → Endpoint) (c : Call) (h : List IpcEvent) (s : CallSlot) :
    Prop where
  fresh : s ∉ h.filterMap made → c.gen = 0 ∧ ∀ ev ∈ h, replied ev ≠ some (makeId 1 s)
  live : c.gen = 0 ∨ c.gen = 1 ∧ LiveCall g_ep c h s

/-- A queue entry names a call that waits at that endpoint, or one that was freed. -/
structure ReplyInv (st : State) (h : List IpcEvent) : Prop where
  slot : ∀ s, ReplySlot st.g_ep (st.g_call s) h s
  entry : ∀ i, (st.g_ep i).used = true → ∀ s ∈ (st.g_ep i).queue, s ∈ h.filterMap made ∧
    ((st.g_call s).gen = 1 → ((st.g_call s).state = .queued ∨ (st.g_call s).state = .abandoned) ∧
      (st.g_call s).ep = i ∧ (st.g_call s).ep_gen = (st.g_ep i).gen)
  nodup : ∀ i, (st.g_ep i).used = true → (st.g_ep i).queue.Nodup
  ids : ∀ ev ∈ h, ∀ s, made ev = some s → ev.out.call_id = makeId 1 s

theorem ReplyInv.init (g : ℤ) : ReplyInv (State.init g) [] where
  slot s := ⟨fun _ => ⟨rfl, by simp⟩, .inl rfl⟩
  entry i hi := by cases hi
  nodup i hi := by cases hi
  ids ev hev := by cases hev

section Append
variable {h : List IpcEvent} {ev : IpcEvent} {s : CallSlot}

theorem Received.append {id : Word} {ptr : ℕ} (hr : Received id ptr h) :
    Received id ptr (ev :: h) := by
  obtain ⟨ev', hev', hr⟩ := hr
  exact ⟨ev', by simp [hev'], hr⟩

theorem Answered.append {id : Word} {i : ℕ} {gen : Word} {resp : List UInt8} {ss : ℤ}
    (ha : Answered id h i gen resp ss) (hr : replied ev ≠ some id) :
    Answered id (ev :: h) i gen resp ss := by
  obtain ⟨h₂, ev₀, h₁, proc, mem, r, j, rfl, hact, hid, hl, ha⟩ := ha
  refine ⟨ev :: h₂, ev₀, h₁, proc, mem, r, j, rfl, hact, hid, ?_, ha⟩
  rintro ev' (_ | ⟨_, hev'⟩)
  · exact hr
  · exact hl ev' hev'

theorem LiveCall.append {g_ep : EpSlot → Endpoint} {c : Call} (hc : LiveCall g_ep c h s)
    (hpre : (ev.pre.g_call s).state ≠ .free) (hm : made ev ≠ some s)
    (hr : replied ev ≠ some (makeId 1 s)) : LiveCall g_ep c (ev :: h) s where
  live := hc.live
  unfreed := .inr ⟨hm, hpre, hc.unfreed⟩
  madeFor := by
    obtain ⟨ev', hev', hm'⟩ := hc.madeFor
    exact ⟨ev', by simp [hev'], hm'⟩
  unanswered hd := by
    rintro ev' (_ | ⟨_, hev'⟩)
    · exact hr
    · exact hc.unanswered hd ev' hev'
  serving hs := by
    obtain ⟨i, hu, hep, hgen, hrec⟩ := hc.serving hs
    exact ⟨i, hu, hep, hgen, hrec.append⟩
  done hd := (hc.done hd).append hr
  failed := hc.failed

theorem ReplySlot.append {g_ep : EpSlot → Endpoint} {c : Call} (hc : ReplySlot g_ep c h s)
    (hpre : c.gen = 1 → (ev.pre.g_call s).state ≠ .free)
    (hm : made ev = some s → s ∉ h.filterMap made)
    (hr : replied ev ≠ some (makeId 1 s)) : ReplySlot g_ep c (ev :: h) s := by
  by_cases hms : made ev = some s
  · refine ⟨fun hn => absurd (List.mem_filterMap.mpr ⟨ev, by simp, hms⟩) hn, .inl ?_⟩
    exact (hc.fresh (hm hms)).1
  · refine ⟨fun hn => ?_, hc.live.imp_right fun hl => ⟨hl.1, hl.2.append (hpre hl.1) hms hr⟩⟩
    have hn' : s ∉ h.filterMap made := fun hmem => hn <| by
      obtain ⟨ev', hev', hm'⟩ := List.mem_filterMap.mp hmem
      exact List.mem_filterMap.mpr ⟨ev', by simp [hev'], hm'⟩
    refine ⟨(hc.fresh hn').1, ?_⟩
    rintro ev' (_ | ⟨_, hev'⟩)
    · exact hr
    · exact (hc.fresh hn').2 ev' hev'

theorem mem_made_append (hs : s ∈ h.filterMap made) : s ∈ (ev :: h).filterMap made := by
  obtain ⟨ev', hev', hm⟩ := List.mem_filterMap.mp hs
  exact List.mem_filterMap.mpr ⟨ev', by simp [hev'], hm⟩

/-- The history grows first; the tables change after it. -/
theorem ReplyInv.append {st : State} (hi : ReplyInv st h) (hpre : ev.pre = st)
    (hm : ∀ s, made ev = some s → s ∉ h.filterMap made ∧ ev.out.call_id = makeId 1 s)
    (hr : ∀ s : CallSlot, replied ev ≠ some (makeId 1 s)) : ReplyInv st (ev :: h) where
  slot s := (hi.slot s).append (fun hg => by
    rcases (hi.slot s).live with h0 | ⟨-, hl⟩
    · rw [h0] at hg
      cases hg
    · exact hpre ▸ hl.live) (fun hms => (hm s hms).1) (hr s)
  entry i hu s hs := ⟨mem_made_append (hi.entry i hu s hs).1, (hi.entry i hu s hs).2⟩
  nodup := hi.nodup
  ids := by
    rintro ev' (_ | ⟨_, hev'⟩) s hs
    · exact (hm s hs).2
    · exact hi.ids ev' hev' s hs

end Append

/-! ## Changes of the tables -/

section Tables
variable {st : State} {h : List IpcEvent}

theorem ReplyInv.congr {st' : State} (hi : ReplyInv st h) (hep : st'.g_ep = st.g_ep)
    (hcall : st'.g_call = st.g_call) : ReplyInv st' h := by
  obtain ⟨h1, h2, h3, h4⟩ := hi
  exact ⟨by simpa only [hep, hcall], by simpa only [hep, hcall], by simpa only [hep], h4⟩

theorem ReplySlot.zero {g_ep : EpSlot → Endpoint} {c c' : Call} {s : CallSlot}
    (hc : ReplySlot g_ep c h s) (hg : c'.gen = 0) (g_ep' : EpSlot → Endpoint) :
    ReplySlot g_ep' c' h s :=
  ⟨fun hn => ⟨hg, (hc.fresh hn).2⟩, .inl hg⟩

/-- The slot goes on with the same call. -/
theorem ReplySlot.update {g_ep g_ep' : EpSlot → Endpoint} {c c' : Call} {s : CallSlot}
    (hc : ReplySlot g_ep c h s) (hg : c'.gen = c.gen)
    (hl : c.gen = 1 → LiveCall g_ep c h s → LiveCall g_ep' c' h s) : ReplySlot g_ep' c' h s :=
  ⟨fun hn => hg ▸ hc.fresh hn, hg ▸ hc.live.imp_right fun hlive => ⟨hlive.1, hl hlive.1 hlive.2⟩⟩

theorem LiveCall.setEp {g_ep g_ep' : EpSlot → Endpoint} {c : Call} {s : CallSlot}
    (hc : LiveCall g_ep c h s)
    (he : c.state = .serving → ∀ i, (g_ep i).used = true → c.ep = i → (g_ep' i).used = true ∧
      (g_ep' i).gen = (g_ep i).gen ∧ (g_ep' i).owner = (g_ep i).owner) :
    LiveCall g_ep' c h s where
  live := hc.live
  unfreed := hc.unfreed
  madeFor := hc.madeFor
  unanswered := hc.unanswered
  serving hs := by
    obtain ⟨i, hu, hep, hgen, hrec⟩ := hc.serving hs
    obtain ⟨hu', hgen', ho'⟩ := he hs i hu hep
    exact ⟨i, hu', hep, hgen.trans hgen'.symm, ho' ▸ hrec⟩
  done := hc.done
  failed := hc.failed

/-- An unanswered call may be given up or fail. -/
theorem LiveCall.stop {g_ep : EpSlot → Endpoint} {c c' : Call} {s : CallSlot}
    (hc : LiveCall g_ep c h s) (hd : c.state ≠ .done) (hep : c'.ep = c.ep)
    (hgen : c'.ep_gen = c.ep_gen)
    (hst : c'.state = .abandoned ∨ c'.state = .failed ∧ c'.fail ≠ ipcOk)
    (g_ep' : EpSlot → Endpoint) : LiveCall g_ep' c' h s where
  live := by rcases hst with hst | ⟨hst, -⟩ <;> simp [hst]
  unfreed := hc.unfreed
  madeFor := by rw [hep, hgen]; exact hc.madeFor
  unanswered _ := hc.unanswered hd
  serving hs := by rcases hst with hst | ⟨hst, -⟩ <;> simp [hst] at hs
  done hs := by rcases hst with hst | ⟨hst, -⟩ <;> simp [hst] at hs
  failed hs := by
    rcases hst with hst | ⟨-, hst⟩
    · simp [hst] at hs
    · exact hst

theorem ReplyInv.setCall (hi : ReplyInv st h) {s : CallSlot} {c : Call}
    (hc : ReplySlot st.g_ep c h s)
    (hq : ∀ i, (st.g_ep i).used = true → s ∈ (st.g_ep i).queue → c.gen = 1 →
      (c.state = .queued ∨ c.state = .abandoned) ∧ c.ep = i ∧ c.ep_gen = (st.g_ep i).gen) :
    ReplyInv (st.setCall s c) h where
  slot t := by
    by_cases hts : t = s
    · subst hts
      simpa using hc
    · simpa [hts] using hi.slot t
  entry i hu t ht := by
    refine ⟨(hi.entry i hu t ht).1, ?_⟩
    by_cases hts : t = s
    · subst hts
      simpa using hq i hu ht
    · simpa [hts] using (hi.entry i hu t ht).2
  nodup := hi.nodup
  ids := hi.ids

theorem ReplyInv.callFree (hi : ReplyInv st h) (s : CallSlot) : ReplyInv (callFree st s) h :=
  hi.setCall ((hi.slot s).zero rfl _) fun _ _ _ hg => by cases hg

theorem ReplyInv.abandon (hi : ReplyInv st h) {s : CallSlot} (hd : (st.g_call s).state ≠ .done) :
    ReplyInv (st.setCall s { st.g_call s with state := .abandoned }) h :=
  hi.setCall ((hi.slot s).update (by rfl) fun _ hl =>
      hl.stop hd (by rfl) (by rfl) (.inl (by rfl)) _)
    fun i hu hm hg => ⟨.inr rfl, ((hi.entry i hu s hm).2 hg).2⟩

/-- A new or changed endpoint; the others stay. -/
theorem ReplyInv.setEp (hi : ReplyInv st h) {i : EpSlot} {e : Endpoint}
    (hs : ∀ s, (st.g_call s).gen = 1 → (st.g_ep i).used = true → (st.g_call s).ep = i →
      e.used = true ∧ e.gen = (st.g_ep i).gen ∧ e.owner = (st.g_ep i).owner)
    (he : e.used = true → (∀ s ∈ e.queue, s ∈ h.filterMap made ∧ ((st.g_call s).gen = 1 →
        ((st.g_call s).state = .queued ∨ (st.g_call s).state = .abandoned) ∧
          (st.g_call s).ep = i ∧ (st.g_call s).ep_gen = e.gen)) ∧ e.queue.Nodup) :
    ReplyInv (st.setEp i e) h where
  slot s := by
    refine ⟨(hi.slot s).fresh, (hi.slot s).live.imp_right fun hl => ⟨hl.1, hl.2.setEp ?_⟩⟩
    intro _ j hj hep
    by_cases hji : j = i
    · subst hji
      simpa using hs s hl.1 hj hep
    · simpa [hji] using hj
  entry j hj s hm := by
    by_cases hji : j = i
    · subst hji
      simp only [setEp_g_ep, if_true, setEp_g_call] at hj hm ⊢
      exact (he hj).1 s hm
    · simp only [setEp_g_ep, hji, if_false, setEp_g_call] at hj hm ⊢
      exact hi.entry j hj s hm
  nodup j hj := by
    by_cases hji : j = i
    · subst hji
      simp only [setEp_g_ep, if_true] at hj ⊢
      exact (he hj).2
    · simp only [setEp_g_ep, hji, if_false] at hj ⊢
      exact hi.nodup j hj
  ids := hi.ids

theorem ReplySlot.cancelled {g_ep : EpSlot → Endpoint} {c : Call} {s : CallSlot}
    (hc : ReplySlot g_ep c h s) (proc : AuProcess) : ReplySlot g_ep (cancelled proc c) h s := by
  unfold Ipc.cancelled
  split_ifs with h1 h2
  · exact hc
  · exact hc.update (by rfl) fun _ hl =>
      hl.stop (by rcases h2 with h | h <;> simp [h]) (by rfl) (by rfl) (.inl (by rfl)) _
  · exact hc.zero rfl _

theorem ReplySlot.orphaned {proc : AuProcess} {s : CallSlot}
    (hc : ReplySlot st.g_ep (st.g_call s) h s) :
    ReplySlot (auIpcProcessGone st proc).g_ep (orphaned st proc (st.g_call s)) h s := by
  have hkeep : ∀ i, ¬ ownedBy proc (st.g_ep i) →
      (auIpcProcessGone st proc).g_ep i = st.g_ep i := fun i => (processGone_g_ep st proc i).2
  have hfail : ∀ {c : Call}, (c.state = .queued ∨ c.state = .serving) → LiveCall st.g_ep c h s →
      LiveCall (auIpcProcessGone st proc).g_ep { c with state := .failed, fail := ipcEDead } h s :=
    fun hst hl => hl.stop (by rcases hst with h | h <;> simp [h]) (by rfl) (by rfl)
      (.inr ⟨by rfl, by simp [ipcEDead, ipcOk]⟩) _
  by_cases hs : (st.g_call s).state = .serving ∧ (st.g_call s).gen = 1
  · rcases hc.live with hg | ⟨-, hl⟩
    · simp [hg] at hs
    obtain ⟨i, hu, hep, hgen, -⟩ := hl.serving hs.1
    by_cases ho : ownedBy proc (st.g_ep i)
    · rw [orphaned_of_owned hep hgen ho (.inr hs.1)]
      exact hc.update (by rfl) fun _ => hfail (.inr hs.1)
    · rw [orphaned_of_not_owned hep ho]
      refine hc.update rfl fun _ hl => hl.setEp fun _ j hj hcj => ?_
      have hji : j = i := Fin.ext (hcj.symm.trans hep)
      rw [hji, hkeep i ho]
      exact ⟨hu, rfl, rfl⟩
  · have hgen : (Ipc.orphaned st proc (st.g_call s)).gen = (st.g_call s).gen := by
      unfold Ipc.orphaned failedBy
      split_ifs <;> rfl
    refine ⟨fun hn => hgen ▸ hc.fresh hn, hgen ▸ hc.live.imp_right fun ⟨hg, hl⟩ => ⟨hg, ?_⟩⟩
    have hsame : LiveCall (auIpcProcessGone st proc).g_ep (st.g_call s) h s :=
      hl.setEp fun hsv => absurd ⟨hsv, hg⟩ hs
    unfold Ipc.orphaned failedBy
    split_ifs with h1 h2 h3
    · exact hfail h3.2.2 hl
    · exact hsame
    · exact hsame
    · exact hsame

theorem ReplyInv.processGone (hi : ReplyInv st h) (proc : AuProcess) :
    ReplyInv (auIpcProcessGone st proc) h := by
  have hep : ∀ i, ((auIpcProcessGone st proc).g_ep i).used = true →
      ¬ ownedBy proc (st.g_ep i) ∧ (auIpcProcessGone st proc).g_ep i = st.g_ep i := by
    intro i hi
    obtain ⟨h1, h2⟩ := processGone_g_ep st proc i
    by_cases ho : ownedBy proc (st.g_ep i)
    · rw [(h1 ho).1] at hi
      cases hi
    · exact ⟨ho, h2 ho⟩
  refine ⟨fun s => ?_, fun i hu s hm => ?_, fun i hu => ?_, hi.ids⟩
  · rw [processGone_g_call]
    exact (hi.slot s).orphaned.cancelled proc
  · obtain ⟨ho, he⟩ := hep i hu
    rw [he] at hu hm ⊢
    refine ⟨(hi.entry i hu s hm).1, ?_⟩
    rw [processGone_g_call]
    intro hg
    have hq : (st.g_call s).gen = 1 := by
      unfold cancelled Ipc.orphaned failedBy at hg
      split_ifs at hg <;> first | exact hg | cases hg
    obtain ⟨hst, hcep, hgen⟩ := (hi.entry i hu s hm).2 hq
    rw [orphaned_of_not_owned hcep ho] at hg ⊢
    unfold cancelled at hg ⊢
    split_ifs at hg ⊢ with h1 h2
    · exact ⟨hst, hcep, hgen⟩
    · exact ⟨.inr rfl, hcep, hgen⟩
    · cases hg
  · obtain ⟨-, he⟩ := hep i hu
    rw [he] at hu ⊢
    exact hi.nodup i hu

theorem ReplyInv.prune (hi : ReplyInv st h) : ReplyInv (ipcPruneDead st) h := by
  refine run_invariant (I := fun st => ReplyInv st h) (fun st i hi => ?_) _ hi
  unfold pruneOne
  split_ifs
  · exact hi.processGone _
  · exact hi

/-- The head of a queue is taken off it and goes on as `c`. -/
theorem ReplyInv.pop (hi : ReplyInv st h) {i : EpSlot} {s : CallSlot} {q : List CallSlot}
    (hu : (st.g_ep i).used = true) (hq : (st.g_ep i).queue = s :: q) {c : Call}
    (hc : ReplySlot st.g_ep c h s) (hg : c.gen = 1 → (st.g_call s).gen = 1) :
    ReplyInv ((popQueue st i).setCall s c) h := by
  have hnd := hi.nodup i hu
  rw [hq] at hnd
  have hpop : ReplyInv (popQueue st i) h := by
    refine hi.setEp (fun s _ hu' _ => ⟨hu', rfl, rfl⟩) fun _ => ⟨fun t ht => ?_, ?_⟩
    · exact hi.entry i hu t (List.mem_of_mem_tail ht)
    · simpa [hq] using (List.nodup_cons.mp hnd).2
  have hslot : ReplySlot (popQueue st i).g_ep c h s := by
    refine ⟨hc.fresh, hc.live.imp_right fun hl => ⟨hl.1, hl.2.setEp fun _ j hj _ => ?_⟩⟩
    by_cases hji : j = i
    · subst hji
      simpa using hj
    · simpa [hji] using hj
  refine hpop.setCall hslot fun j hj hm hc1 => ?_
  by_cases hji : j = i
  · subst hji
    simp only [popQueue_g_ep, if_true, hq, List.tail_cons] at hm
    exact absurd hm (List.nodup_cons.mp hnd).1
  · simp only [popQueue_g_ep, hji, if_false] at hj hm
    have hi1 := ((hi.entry i hu s (by simp [hq])).2 (hg hc1)).2.1
    have hj1 := ((hi.entry j hj s hm).2 (hg hc1)).2.1
    exact absurd (Fin.ext (hj1.symm.trans hi1)) hji

theorem ReplyInv.recvLoop (hi : ReplyInv st h) {i : EpSlot} (hu : (st.g_ep i).used = true)
    (cap : ℕ) (hrec : ∀ s c, (recvLoop cap i (st.g_ep i).queue.length st).2.2 = some (s, c) →
      c.gen = 1 → Received (makeId 1 s) (st.g_ep i).owner h) :
    ReplyInv (recvLoop cap i (st.g_ep i).queue.length st).1 h := by
  obtain ⟨mid, ⟨hm, hmu, hmo⟩, ⟨-, hr⟩ | ⟨s, q, hq, hna, hr⟩⟩ := recvLoop_rule cap i
    (fun t => ReplyInv t h ∧ (t.g_ep i).used = true ∧ (t.g_ep i).owner = (st.g_ep i).owner) st
    (fun t s q hP hq _ => ⟨hP.1.pop hP.2.1 hq ((hP.1.slot s).zero rfl _) (by simp),
      by simpa using hP.2.1, by simpa using hP.2.2⟩) ⟨hi, hu, rfl⟩
  · rwa [hr]
  · have hqd : (mid.g_call s).gen = 1 → (mid.g_call s).state = .queued ∧
        (mid.g_call s).ep = i ∧ (mid.g_call s).ep_gen = (mid.g_ep i).gen := fun hg => by
      obtain ⟨hst, hep⟩ := (hm.entry i hmu s (by simp [hq])).2 hg
      exact ⟨hst.resolve_right hna, hep⟩
    rcases hr with hr | hr
    · have hne : ((popQueue mid i).g_call s).state ≠ .abandoned := hna
      rw [hr, Ipc.callFail, if_neg hne]
      refine (hm.pop hmu hq (c := { mid.g_call s with state := .failed, fail := ipcETooBig })
        ?_ id).congr (wakeTid_g_ep _ _) (wakeTid_g_call _ _)
      exact (hm.slot s).update rfl fun hg hl => hl.stop (by simp [(hqd hg).1]) (by rfl) (by rfl)
        (.inr ⟨by rfl, by simp [ipcETooBig, ipcOk]⟩) _
    · rw [hr] at hrec ⊢
      refine hm.pop hmu hq ((hm.slot s).update (by rfl) fun hg hl => ?_) id
      obtain ⟨hst, hep, hgen⟩ := hqd hg
      refine ⟨by simp, hl.unfreed, hl.madeFor, fun _ => hl.unanswered (by simp [hst]), fun _ => ?_,
        by simp, by simp⟩
      exact ⟨i, hmu, hep, hgen, hmo ▸ hrec s _ rfl hg⟩

/-- A step that fills the free slot `s`, which never held a call, with a call for `i`. -/
theorem ReplyInv.makes (hi : ReplyInv st h) {i : EpSlot} {s : CallSlot} {ev : IpcEvent}
    (hi' : ReplyInv st (ev :: h)) {pid uid gid : ℤ} {tid : UInt64} {req : List UInt8}
    (hpre : st = ipcPruneDead ev.pre) (hid : ev.out.call_id = makeId 1 s)
    (hm : made ev = some s) (ht : target ev = some i) (hr : replied ev = none)
    (hfresh : s ∉ h.filterMap made) :
    ReplyInv (queueCall st i s pid uid gid tid req) (ev :: h) := by
  obtain ⟨hg, hno⟩ := (hi.slot s).fresh hfresh
  have hnot : ∀ j, (st.g_ep j).used = true → s ∉ (st.g_ep j).queue :=
    fun j hj hmem => hfresh (hi.entry j hj s hmem).1
  have hmem : s ∈ (ev :: h).filterMap made := List.mem_filterMap.mpr ⟨ev, by simp, hm⟩
  let c : Call :=
    { state := .queued, gen := (st.g_call s).gen + 1, ep := i, ep_gen := (st.g_ep i).gen,
      client_pid := pid, client_uid := uid, client_gid := gid, client_tid := tid, req := req }
  have hlive : LiveCall st.g_ep c (ev :: h) s := by
    refine ⟨by simp [c], .inl ⟨hm, hfresh⟩, ⟨ev, by simp, hm, hid, i, ht, rfl, ?_⟩, fun _ => ?_,
      by simp [c], by simp [c], by simp [c]⟩
    · exact congrArg (fun st : State => (st.g_ep i).gen) hpre
    · rintro ev' (_ | ⟨_, hev'⟩)
      · simp [hr]
      · exact hno ev' hev'
  have hslot : ReplySlot st.g_ep c (ev :: h) s :=
    ⟨fun hn => absurd hmem hn, .inr ⟨by simp [c, hg], hlive⟩⟩
  have hcall : ReplyInv (st.setCall s c) (ev :: h) :=
    hi'.setCall hslot fun j hj hmem' => absurd hmem' (hnot j hj)
  suffices hq : ReplyInv ((st.setCall s c).setEp i
      { st.g_ep i with queue := (st.g_ep i).queue ++ [s], waiter_tid := 0 }) (ev :: h) from
    hq.congr (wakeTid_g_ep _ _) (wakeTid_g_call _ _)
  refine hcall.setEp (fun _ _ hu _ => ⟨hu, rfl, rfl⟩) fun hu => ⟨fun t ht => ?_, ?_⟩
  · rcases List.mem_append.mp ht with ht | ht
    · exact hcall.entry i hu t ht
    · rw [List.mem_singleton] at ht
      subst ht
      exact ⟨hmem, fun _ => by simp [c]⟩
  · refine List.nodup_append.mpr ⟨hi.nodup i hu, List.nodup_singleton s, ?_⟩
    rintro a ha b hb rfl
    rw [List.mem_singleton] at hb
    exact hnot i hu (hb ▸ ha)

end Tables

/-- If the step makes a call, it makes it in a slot that never held one in this run. -/
def FreshSlots (R : Recorded) (act : Act) : Prop :=
  match act with
  | .call proc _ _ r => prunes R.1 act = true →
    match callTarget (ipcPruneDead R.1) proc r.handle with
    | .ok (_, s) => s ∉ R.2.filterMap made
    | .error _ => True
  | .kCallBegin name .. => prunes R.1 act = true →
    ∀ i, findEp (ipcPruneDead R.1) (fun e => e.used && e.name == name) = some i →
      ((ipcPruneDead R.1).g_ep i).queue.length < epQueue →
      ∀ s, freeSlot (ipcPruneDead R.1) = some s → s ∉ R.2.filterMap made
  | _ => True

/-- For the membership in `FreshSlots`. -/
local instance lawfulBEq_callSlot : LawfulBEq CallSlot := inferInstance

instance (R : Recorded) : DecidablePred (FreshSlots R)
  | .call proc _ _ r => by
    unfold FreshSlots
    dsimp only
    cases callTarget (ipcPruneDead R.1) proc r.handle <;> infer_instance
  | .kCallBegin .. => by
    unfold FreshSlots
    infer_instance
  | .create .. | .destroy .. | .connect .. | .fetch .. | .wait .. | .recv .. | .reply ..
  | .kCallPoll .. | .kCallAbandon _ | .processGone _ | .setDied .. => isTrue trivial

/-! ## Every operation keeps the invariant -/

section Operations
variable {st : State} {h : List IpcEvent}

theorem ReplyInv.quiet (hi : ReplyInv st h) {ev : IpcEvent} (hpre : ev.pre = st)
    (hm : made ev = none) (hr : replied ev = none) : ReplyInv st (ev :: h) :=
  hi.append hpre (by simp [hm]) (by simp [hr])

theorem ReplyInv.create (hi : ReplyInv st h) {i : EpSlot} {e : Endpoint}
    (hu : (st.g_ep i).used = false) (hq : e.queue = []) : ReplyInv (st.setEp i e) h := by
  refine hi.setEp (fun s _ hu' _ => ?_) fun _ => ?_
  · rw [hu] at hu'
    cases hu'
  · simp [hq]

/-- An accepted reply to the call in slot `s`, which goes on as `c`. -/
theorem ReplyInv.reply (hi : ReplyInv st h) {s : CallSlot} {proc : AuProcess} {mem : Bool}
    {r : IpcReply} {ev : IpcEvent} {c : Call} (hpre : ev.pre = st)
    (hact : ev.act = .reply proc mem r) (hrc : ev.out.rc = ipcOk)
    (hid : callFromId st r.call_id = some s) (hzero : (st.g_call s).gen = 0 → c.gen = 0)
    (hlive : (st.g_call s).gen = 1 → r.call_id = makeId 1 s → LiveCall st.g_ep (st.g_call s) h s →
      c.gen = 0 ∨ c.gen = 1 ∧ LiveCall st.g_ep c (ev :: h) s)
    (hq : (st.g_call s).state = .serving ∨ c.gen = 0) : ReplyInv (st.setCall s c) (ev :: h) := by
  obtain ⟨hslot, -, hshift⟩ := callFromId_slot hid
  have hm : made ev = none := by simp [made, hact]
  have hr : replied ev = some r.call_id := by simp [replied, hact, hrc]
  -- the other slots see a reply to an id that is not theirs
  have hother : ∀ t : CallSlot, t ≠ s → replied ev ≠ some (makeId 1 t) := by
    intro t hts he
    rw [hr, Option.some.injEq] at he
    rw [he, slotOf_makeId, Option.some.injEq] at hslot
    exact hts hslot
  have hgen_ne : ∀ t, (st.g_call t).gen = 1 → (st.g_call t).state ≠ .free := by
    intro t hg
    rcases (hi.slot t).live with h0 | ⟨-, hl⟩
    · rw [h0] at hg
      cases hg
    · exact hl.live
  refine ⟨fun t => ?_, fun i hu t ht => ?_, hi.nodup, ?_⟩
  · by_cases hts : t = s
    · subst hts
      simp only [setCall_g_ep, setCall_g_call, if_true]
      rcases (hi.slot t).live with h0 | ⟨h1, hl⟩
      · refine ⟨fun hn => ⟨hzero h0, ?_⟩, .inl (hzero h0)⟩
        have hn' : t ∉ h.filterMap made := fun hmem => hn (mem_made_append hmem)
        rintro ev' (_ | ⟨_, hev'⟩)
        · rw [hr, ne_eq, Option.some.injEq]
          intro he
          rw [he, makeId_one_sshiftRight, h0] at hshift
          cases hshift
        · exact ((hi.slot t).fresh hn').2 ev' hev'
      · exact ⟨fun hn => absurd (mem_made_append hl.unfreed.mem) hn,
          hlive h1 (eq_makeId_one hslot (hshift.trans h1)) hl⟩
    · simp only [setCall_g_ep, setCall_g_call, hts, if_false]
      exact (hi.slot t).append (hpre ▸ hgen_ne t) (by simp [hm]) (hother t hts)
  · obtain ⟨hmade, hentry⟩ := hi.entry i hu t ht
    refine ⟨mem_made_append hmade, ?_⟩
    by_cases hts : t = s
    · subst hts
      simp only [setCall_g_call, if_true, setCall_g_ep]
      intro hg
      rcases hq with hst | h0
      · have hold : (st.g_call t).gen = 1 := by
          rcases (hi.slot t).live with h0 | ⟨h1, -⟩
          · rw [hzero h0] at hg
            cases hg
          · exact h1
        rcases (hentry hold).1 with h | h <;> rw [hst] at h <;> cases h
      · rw [h0] at hg
        cases hg
    · simpa [hts] using hentry
  · rintro ev' (_ | ⟨_, hev'⟩) t ht
    · rw [hm] at ht
      cases ht
    · exact hi.ids ev' hev' t ht

/-- The reply of the owner of endpoint `j` to a call it was serving. -/
theorem ReplyInv.replies (hi : ReplyInv st h) {s : CallSlot} {j : EpSlot} {proc : AuProcess}
    {mem : Bool} {r : IpcReply} {ev : IpcEvent} (hpre : ev.pre = st)
    (hact : ev.act = .reply proc mem r) (hrc : ev.out.rc = ipcOk)
    (hid : callFromId st r.call_id = some s) (hj : epFromHandle st r.handle = some j)
    (ho : (st.g_ep j).owner = proc.ptr) (hep : (st.g_call s).ep = j)
    (hgen : (st.g_call s).ep_gen = (st.g_ep j).gen) (hst : (st.g_call s).state = .serving) :
    ReplyInv (st.setCall s { st.g_call s with
      state := .done, resp := r.resp.bytes, server_status := r.server_status }) (ev :: h) := by
  refine hi.reply hpre hact hrc hid id (fun h1 hone hl => .inr ⟨h1, ?_⟩) (.inl hst)
  obtain ⟨i, -, hcep, -, hrec⟩ := hl.serving hst
  have hij : i = j := Fin.ext (hcep.symm.trans hep)
  have hm : made ev = none := by simp [made, hact]
  have hr : replied ev = some (makeId 1 s) := by simp [replied, hact, hrc, hone]
  refine ⟨by simp, .inr ⟨by simp [hm], by rw [hpre]; exact hl.live, hl.unfreed⟩, ?_, by simp,
    by simp, fun _ => ?_, by simp⟩
  · obtain ⟨ev', hev', hmf⟩ := hl.madeFor
    exact ⟨ev', by simp [hev'], hmf⟩
  · refine ⟨[], ev, h, proc, mem, r, j, rfl, hact, hr, by simp, hl.unanswered (by simp [hst]),
      ?_, ?_, hep, ?_, ?_, rfl, rfl⟩
    · rw [← ho, ← hij]
      exact hrec
    · rw [hpre]
      exact hj
    · rw [hpre]
      exact hgen
    · rw [hpre]
      exact ho

end Operations

theorem ReplyInv.step {R : Recorded} (hi : ReplyInv R.1 R.2) {act : Act}
    (hf : FreshSlots R act) :
    ReplyInv (recorded Ipc.step R act).1 (recorded Ipc.step R act).2 := by
  obtain ⟨st, hist⟩ := R
  simp only [recorded_fst, recorded_snd]
  cases act with
  | create proc r =>
    have hq : ∀ out, ReplyInv st (⟨st, .create proc r, out⟩ :: hist) :=
      fun _ => hi.quiet rfl rfl rfl
    rcases doCreate_cases st proc r with ⟨_, he⟩ | ⟨-, ⟨_, he⟩ | ⟨i, e, _, _, he, hu, hqe, -⟩⟩ <;>
      simp only [Ipc.step, he]
    · exact hq _
    · exact (hq _).prune
    · exact ((hq _).prune.create hu hqe).congr rfl rfl
  | destroy proc r =>
    have hq : ∀ out, ReplyInv st (⟨st, .destroy proc r, out⟩ :: hist) :=
      fun _ => hi.quiet rfl rfl rfl
    rcases doDestroy_cases st proc r with ⟨_, he⟩ | ⟨i, _, he, -⟩ <;> simp only [Ipc.step, he]
    · exact hq _
    · exact (hq _).processGone proc
  | connect proc r =>
    have hq : ∀ out, ReplyInv st (⟨st, .connect proc r, out⟩ :: hist) :=
      fun _ => hi.quiet rfl rfl rfl
    rcases doConnect_cases st proc r with ⟨_, he⟩ | ⟨-, _, he⟩ <;> simp only [Ipc.step, he]
    · exact hq _
    · exact (hq _).prune
  | call proc thr mem r =>
    rcases doCall_cases st proc thr mem r with
      ⟨_, he, hrc⟩ | ⟨hp, ⟨_, he, hrc⟩ | ⟨i, s, out, he, ht, h1, h2, h3⟩⟩ <;>
      simp only [Ipc.step, he]
    · exact hi.quiet rfl (by simp [made, hrc]) rfl
    · exact (hi.quiet rfl (by simp [made, hrc]) rfl).prune
    · have hfresh : s ∉ hist.filterMap made := by
        have := hf hp
        rwa [ht] at this
      have hm : made ⟨st, .call proc thr mem r, out⟩ = some s := by simp [made, h1, h2, h3]
      have hid : out.call_id = makeId 1 s := by
        rw [h3, ((hi.prune.slot s).fresh hfresh).1]
        rfl
      refine hi.prune.makes (hi.append rfl ?_ (by simp [replied])).prune rfl hid hm
        (callTarget_ok ht).1 rfl hfresh
      intro t ht
      cases hm.symm.trans ht
      exact ⟨hfresh, hid⟩
  | fetch proc r =>
    have hq : ∀ out, ReplyInv st (⟨st, .fetch proc r, out⟩ :: hist) :=
      fun _ => hi.quiet rfl rfl rfl
    rcases doFetch_cases st proc r with ⟨_, he, -⟩ | ⟨s, -, -, ⟨he, -⟩ | ⟨he, hnd, -⟩⟩ <;>
      simp only [Ipc.step, he]
    · exact hq _
    · exact (hq _).callFree s
    · exact (hq _).abandon hnd
  | wait proc thr r =>
    have hq : ∀ out, ReplyInv st (⟨st, .wait proc thr r, out⟩ :: hist) :=
      fun _ => hi.quiet rfl rfl rfl
    rcases doWait_cases st proc thr r with ⟨_, he⟩ | ⟨i, tid, _, he⟩ <;> simp only [Ipc.step, he]
    · exact hq _
    · exact (hq _).setEp (fun _ _ hu _ => ⟨hu, rfl, rfl⟩)
        fun hu => ⟨(hq _).entry i hu, hi.nodup i hu⟩
  | recv proc r =>
    have hq : ∀ out, ReplyInv st (⟨st, .recv proc r, out⟩ :: hist) :=
      fun _ => hi.quiet rfl rfl rfl
    rcases doRecv_cases st proc r with ⟨_, he, -⟩ | ⟨i, hep, hown, hr⟩
    · simp only [Ipc.step, he]
      exact hq _
    · rcases hr with ⟨st', status, he, hr⟩ | ⟨st', status, s, c, out, he, hr, h1, h2, h3, -⟩ <;>
        simp only [Ipc.step, he]
      · have := (hq { rc := ipcOk, status := status }).recvLoop (epFromHandle_used hep) r.buf.cap
          (by simp [hr])
        rwa [hr] at this
      · have hrec : c.gen = 1 → Received (makeId 1 s) (st.g_ep i).owner
            (⟨st, .recv proc r, out⟩ :: hist) := by
          intro hg
          refine ⟨_, List.mem_cons_self, ⟨proc, r, rfl, hown.symm⟩, ?_, by rw [h3, hg]⟩
          have hok := recvLoop_some hr
          simp [Ipc.handed, h1, h2, h3, hok]
        have := (hq out).recvLoop (epFromHandle_used hep) r.buf.cap (by
          rintro t d hd
          rw [hr] at hd
          cases hd
          exact hrec)
        rwa [hr] at this
  | reply proc mem r =>
    rcases doReply_cases st proc mem r with
      ⟨out, he, hrc⟩ | ⟨i, s, hj, ho, hs, hep, hgen, ⟨he, -⟩ | ⟨he, hsv⟩⟩ <;>
      simp only [Ipc.step, he]
    · exact hi.quiet rfl rfl (by simp [replied, hrc])
    · have hd : ReplyInv (Ipc.callFree st s) (⟨st, .reply proc mem r, { rc := ipcOk }⟩ :: hist) :=
        hi.reply rfl rfl rfl hs (fun _ => rfl) (fun _ _ _ => .inl rfl) (.inr rfl)
      exact hd
    · exact (hi.replies rfl rfl rfl hs hj ho hep hgen hsv).congr (wakeTid_g_ep _ _)
        (wakeTid_g_call _ _)
  | kCallBegin name pid uid gid thr mem req =>
    rcases auIpcKCallBegin_cases st name pid uid gid thr mem req with
      ⟨_, he, hrc⟩ | ⟨hp, ⟨_, he, hrc⟩ | ⟨i, s, out, he, hep, hlen, hfree, h1, h2⟩⟩ <;>
      simp only [Ipc.step, he]
    · exact hi.quiet rfl (by simp [made, hrc]) rfl
    · exact (hi.quiet rfl (by simp [made, hrc]) rfl).prune
    · have hfresh : s ∉ hist.filterMap made := hf hp i hep hlen s hfree
      have hm : made ⟨st, .kCallBegin name pid uid gid thr mem req, out⟩ = some s := by
        simp [made, h1, h2]
      have hid : out.call_id = makeId 1 s := by
        rw [h2, ((hi.prune.slot s).fresh hfresh).1]
        rfl
      refine hi.prune.makes (hi.append rfl ?_ (by simp [replied])).prune rfl hid hm hep rfl
        hfresh
      intro t ht
      cases hm.symm.trans ht
      exact ⟨hfresh, hid⟩
  | kCallPoll id cap =>
    have hq : ∀ out, ReplyInv st (⟨st, .kCallPoll id cap, out⟩ :: hist) :=
      fun _ => hi.quiet rfl rfl rfl
    rcases auIpcKCallPoll_cases st id cap with ⟨_, he, -⟩ | ⟨s, he, -⟩ <;> simp only [Ipc.step, he]
    · exact hq _
    · exact (hq _).callFree s
  | kCallAbandon id =>
    have hq : ∀ out, ReplyInv st (⟨st, .kCallAbandon id, out⟩ :: hist) :=
      fun _ => hi.quiet rfl rfl rfl
    rcases auIpcKCallAbandon_cases st id with ⟨-, he⟩ | ⟨s, -, ⟨he, hst⟩ | ⟨he, -⟩⟩ <;>
      simp only [Ipc.step, he]
    · exact hq _
    · exact (hq _).abandon (by rcases hst with h | h <;> simp [h])
    · exact (hq _).callFree s
  | processGone proc =>
    simp only [Ipc.step]
    exact (hi.quiet rfl rfl rfl).processGone proc
  | setDied ptr dead =>
    simp only [Ipc.step]
    have hc : ReplyInv { st with died := Function.update st.died ptr dead }
        (⟨st, .setDied ptr dead, { rc := ipcOk }⟩ :: hist) :=
      (hi.quiet rfl rfl rfl).congr rfl rfl
    exact hc

/-! ## Runs -/

/-- The call whose answer the request asks for. -/
def asks : Act → Option Word
  | .fetch _ r => some r.call_id
  | .kCallPoll id _ => some id
  | _ => none

/-- The call the request is about. -/
def names : Act → Option Word
  | .fetch _ r => some r.call_id
  | .reply _ _ r => some r.call_id
  | .kCallPoll id _ => some id
  | .kCallAbandon id => some id
  | _ => none

/-- An id names the one call it was handed out for, as long as that call is not freed; what
is fetched for it is the one reply to it; no request with an id touches another call. -/
structure ReplyMatching (R : Recorded) : Prop where
  designates : ∀ h₂ ev h₁ s t, R.2 = h₂ ++ ev :: h₁ → made ev = some s →
    callFromId R.1 ev.out.call_id = some t →
    t = s ∧ ∀ ev' ∈ h₂, made ev' ≠ some s ∧ (ev'.pre.g_call s).state ≠ .free
  fetched : ∀ act id, asks act = some id → (∃ ev ∈ R.2, made ev ≠ none ∧ ev.out.call_id = id) →
    (step R.1 act).2.rc = ipcOk → (step R.1 act).2.status = ipcOk →
    ∃ ev ∈ R.2, ∃ s i gen, MadeFor s i gen ev ∧ ev.out.call_id = id ∧
      Answered id R.2 i gen (step R.1 act).2.data (step R.1 act).2.server_status ∧
      (step R.1 act).2.len = (step R.1 act).2.data.length
  untouched : ∀ act id t, names act = some id → callFromId R.1 id ≠ some t →
    (step R.1 act).1.g_call t = R.1.g_call t

theorem callFromId_untouched (st : State) (act : Act) (id : Word) (t : CallSlot)
    (hn : names act = some id) (ht : callFromId st id ≠ some t) :
    (step st act).1.g_call t = st.g_call t := by
  have hne : ∀ {s}, callFromId st id = some s → t ≠ s := fun hs hts => ht (hts ▸ hs)
  cases act with
  | fetch proc r =>
    cases hn
    rcases doFetch_cases st proc r with ⟨_, he, -⟩ | ⟨s, hs, -, ⟨he, -⟩ | ⟨he, -⟩⟩ <;>
      simp only [step, he]
    · simp [hne hs]
    · simp [hne hs]
  | reply proc mem r =>
    cases hn
    rcases doReply_cases st proc mem r with
      ⟨_, he, -⟩ | ⟨i, s, -, -, hs, -, -, ⟨he, -⟩ | ⟨he, -⟩⟩ <;> simp only [step, he]
    · simp [hne hs]
    · simp [hne hs]
  | kCallPoll id' cap =>
    cases hn
    rcases auIpcKCallPoll_cases st id cap with ⟨_, he, -⟩ | ⟨s, he, hs, -⟩ <;> simp only [step, he]
    simp [hne hs]
  | kCallAbandon id' =>
    cases hn
    rcases auIpcKCallAbandon_cases st id with ⟨-, he⟩ | ⟨s, hs, ⟨he, -⟩ | ⟨he, -⟩⟩ <;>
      simp only [step, he]
    · simp [hne hs]
    · simp [hne hs]
  | _ => cases hn

/-- What is taken from a call with status `IPC_OK` is its whole answer. -/
theorem answer_ok {c : Call} {cap : ℕ} (hf : c.state = .failed → c.fail ≠ ipcOk)
    (hst : c.state = .done ∨ c.state = .failed) (hok : (answer c cap).status = ipcOk) :
    c.state = .done ∧ (answer c cap).data = c.resp ∧ (answer c cap).len = c.resp.length ∧
      (answer c cap).server_status = c.server_status := by
  rcases hst with hd | hd
  · simp only [answer, hd, if_true] at hok ⊢
    split_ifs at hok with hcap
    · cases hok
    · exact ⟨trivial, List.take_of_length_le (Nat.le_of_not_lt hcap), trivial, trivial⟩
  · exact absurd (by simpa [answer, hd] using hok) (hf hd)

theorem ReplyInv.one {st : State} {h : List IpcEvent} (hi : ReplyInv st h) {ev : IpcEvent}
    {s t : CallSlot} (hev : ev ∈ h) (hm : made ev = some s)
    (ht : callFromId st ev.out.call_id = some t) :
    t = s ∧ LiveCall st.g_ep (st.g_call s) h s := by
  obtain ⟨hslot, -, hshift⟩ := callFromId_slot ht
  rw [hi.ids ev hev s hm] at hslot hshift
  rw [slotOf_makeId, Option.some.injEq] at hslot
  subst hslot
  rw [makeId_one_sshiftRight] at hshift
  rcases (hi.slot s).live with h0 | ⟨-, hl⟩
  · rw [h0] at hshift
    cases hshift
  · exact ⟨rfl, hl⟩

/-- The fetch or poll of a finished call. -/
theorem ReplyInv.fetched {st : State} {h : List IpcEvent} (hi : ReplyInv st h) {id : Word}
    {s : CallSlot} {cap : ℕ} (hid : callFromId st id = some s)
    (hmade : ∃ ev ∈ h, made ev ≠ none ∧ ev.out.call_id = id)
    (hst : (st.g_call s).state = .done ∨ (st.g_call s).state = .failed)
    (hok : (answer (st.g_call s) cap).status = ipcOk) :
    ∃ ev ∈ h, ∃ s' i gen, MadeFor s' i gen ev ∧ ev.out.call_id = id ∧
      Answered id h i gen (answer (st.g_call s) cap).data
        (answer (st.g_call s) cap).server_status ∧
      (answer (st.g_call s) cap).len = (answer (st.g_call s) cap).data.length := by
  obtain ⟨ev, hev, hm, rfl⟩ := hmade
  obtain ⟨s', hs'⟩ := Option.ne_none_iff_exists'.mp hm
  obtain ⟨rfl, hl⟩ := hi.one hev hs' hid
  obtain ⟨hd, hdata, hlen, hss⟩ := answer_ok hl.failed hst hok
  obtain ⟨ev', hev', hmf⟩ := hl.madeFor
  have hone := hi.ids ev hev s hs'
  refine ⟨ev', hev', s, _, _, hmf, hmf.2.1.trans hone.symm, ?_, by rw [hdata, hlen]⟩
  rw [hdata, hss, hone]
  exact hl.done hd

theorem ReplyInv.matching {R : Recorded} (hi : ReplyInv R.1 R.2) : ReplyMatching R where
  designates h₂ ev h₁ s t hsplit hm ht := by
    obtain ⟨hts, hl⟩ := hi.one (by simp [hsplit]) hm ht
    exact ⟨hts, (hsplit ▸ hl.unfreed).since hm⟩
  fetched act id ha hmade hrc hst := by
    cases act with
    | fetch proc r =>
      cases ha
      rcases doFetch_cases R.1 proc r with ⟨_, he, hno⟩ | ⟨s, hs, -, ⟨he, hfin⟩ | ⟨he, -⟩⟩ <;>
        simp only [Ipc.step, he] at hrc hst ⊢
      · rcases hno with hno | ⟨hno, -⟩
        · exact absurd hrc hno
        · rw [hno] at hst
          cases hst
      · exact hi.fetched hs hmade hfin hst
      · cases hst
    | kCallPoll id' cap =>
      cases ha
      rcases auIpcKCallPoll_cases R.1 id cap with ⟨_, he, hno⟩ | ⟨s, he, hs, hfin⟩ <;>
        simp only [Ipc.step, he] at hrc hst ⊢
      · rcases hno with ⟨hno, -⟩ | hno <;> rw [hno] at hrc <;> cases hrc
      · exact hi.fetched hs hmade hfin hst
    | _ => cases ha
  untouched act id t := callFromId_untouched R.1 act id t

/-- In a run that makes no two calls in one slot, every id names its own call and every
answer fetched is the one the server gave to it. -/
theorem exec_replyMatching (daemonsGid : ℤ) (acts : List Act)
    (h : Respects FreshSlots (recorded step) (State.init daemonsGid, []) acts) :
    ReplyMatching (exec daemonsGid acts) :=
  (h.invariant (I := fun R => ReplyInv R.1 R.2) (fun _ _ hi hf => hi.step hf)
    (ReplyInv.init daemonsGid)).matching

theorem exec_replyMatching_served : ReplyMatching (exec 7 servedRun) :=
  exec_replyMatching 7 servedRun (by decide +kernel)

/-- The client's call is fetched, and the next call, of another process, gets its id. -/
def reusedRun : List Act :=
  servedRun ++ [.call other none true ⟨0x10000, makeId 1 0, 10, ⟨0x20000, [9]⟩⟩]

/-- The first client's id names the other process's call, and giving it up stops that call. -/
theorem not_exec_replyMatching : ¬ ReplyMatching (exec 7 reusedRun) ∧
    ((step (exec 7 reusedRun).1 (.kCallAbandon (makeId 1 0))).1.g_call 0).state = .abandoned := by
  refine ⟨fun h => ?_, by decide +kernel⟩
  have hl : 4 < (exec 7 reusedRun).2.length := by decide +kernel
  have hl' : 0 < ((exec 7 reusedRun).2.take 4).length := by decide +kernel
  have hsplit : (exec 7 reusedRun).2 = (exec 7 reusedRun).2.take 4 ++
      (exec 7 reusedRun).2[4] :: (exec 7 reusedRun).2.drop 5 := by
    rw [← List.drop_eq_getElem_cons hl, List.take_append_drop]
  have hmade : made (exec 7 reusedRun).2[4] = some 0 := by
    clear hsplit h
    revert hl
    decide +kernel
  have hid : callFromId (exec 7 reusedRun).1 (exec 7 reusedRun).2[4].out.call_id = some 0 := by
    clear hmade hsplit h
    revert hl
    decide +kernel
  refine ((h.designates _ _ _ 0 0 hsplit hmade hid).2 _ (List.getElem_mem hl')).1 ?_
  clear hid hmade hsplit h
  revert hl'
  decide +kernel

end Xeneva.Ipc
