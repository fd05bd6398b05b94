import Xeneva.Ipc.Tables

/-!
# What the operations do to the tables

One lemma for each helper of the operations: which endpoint and which call it changes,
and to what. The proofs about runs use these and never unfold the loops again.
-/

namespace Xeneva.Ipc
open Base

section Updates
variable (st : State) (i j : EpSlot) (s t : CallSlot) (e : Endpoint) (c : Call) (tid : UInt64)

@[simp] theorem setEp_g_ep : (st.setEp i e).g_ep j = if j = i then e else st.g_ep j := by
  simp [State.setEp, Function.update_apply]

@[simp] theorem setEp_g_call : (st.setEp i e).g_call = st.g_call := rfl

@[simp] theorem setCall_g_ep : (st.setCall s c).g_ep = st.g_ep := rfl

@[simp] theorem setCall_g_call :
    (st.setCall s c).g_call t = if t = s then c else st.g_call t := by
  simp [State.setCall, Function.update_apply]

@[simp] theorem wakeTid_g_ep : (wakeTid st tid).g_ep = st.g_ep := by
  unfold wakeTid; split <;> rfl

@[simp] theorem wakeTid_g_call : (wakeTid st tid).g_call = st.g_call := by
  unfold wakeTid; split <;> rfl

@[simp] theorem callFree_g_ep : (callFree st s).g_ep = st.g_ep := rfl

@[simp] theorem callFree_g_call :
    (callFree st s).g_call t = if t = s then {} else st.g_call t := by
  simp [callFree]

@[simp] theorem callFail_g_ep (why : ℤ) : (callFail st s why).g_ep = st.g_ep := by
  unfold callFail; split <;> simp

theorem callFail_g_call {why : ℤ} (h : (st.g_call s).state ≠ .abandoned) :
    (callFail st s why).g_call t =
      if t = s then { st.g_call s with state := .failed, fail := why } else st.g_call t := by
  simp [callFail, h]

@[simp] theorem popQueue_g_call : (popQueue st i).g_call = st.g_call := rfl

@[simp] theorem popQueue_g_ep : (popQueue st i).g_ep j =
    if j = i then { st.g_ep i with queue := (st.g_ep i).queue.tail } else st.g_ep j := by
  simp [popQueue]

end Updates

theorem epFromHandle_used {st : State} {h : Word} {i : EpSlot} (hi : epFromHandle st h = some i) :
    (st.g_ep i).used = true := by
  unfold epFromHandle at hi
  split at hi
  · split at hi
    · next hu => cases hi; exact hu.1
    · cases hi
  · cases hi

theorem callFromId_slot {st : State} {id : Word} {s : CallSlot} (hs : callFromId st id = some s) :
    slotOf id = some s ∧ (st.g_call s).state ≠ .free ∧ id.sshiftRight 8 = (st.g_call s).gen := by
  unfold callFromId at hs
  split at hs
  · next hlt =>
    split at hs
    · next hu => cases hs; exact ⟨by simp [slotOf, hlt], hu⟩
    · cases hs
  · cases hs

theorem findEp_spec {st : State} {p : Endpoint → Bool} {i : EpSlot} (h : findEp st p = some i) :
    p (st.g_ep i) = true := by
  unfold findEp at h
  simpa using List.find?_some h

theorem freeSlot_spec {st : State} {s : CallSlot} (h : freeSlot st = some s) :
    (st.g_call s).state = .free := by
  simpa using List.find?_some h

/-- A loop whose turns each rewrite their own call rewrites every call once. -/
theorem run_local {f : State → CallSlot → State} {g : (EpSlot → Endpoint) → Call → Call}
    (hep : ∀ st s, (f st s).g_ep = st.g_ep)
    (hcall : ∀ st s t, (f st s).g_call t =
      if t = s then g st.g_ep (st.g_call s) else st.g_call t) (st : State) :
    (run f st (List.finRange 32)).g_ep = st.g_ep ∧
      ∀ t, (run f st (List.finRange 32)).g_call t = g st.g_ep (st.g_call t) := by
  have key : ∀ (l : List CallSlot) (st : State), l.Nodup →
      (run f st l).g_ep = st.g_ep ∧
        ∀ t, (run f st l).g_call t = if t ∈ l then g st.g_ep (st.g_call t) else st.g_call t := by
    intro l
    induction l with
    | nil => intro st _; simp
    | cons a l ih =>
      intro st hl
      obtain ⟨hal, hl⟩ := List.nodup_cons.mp hl
      obtain ⟨h1, h2⟩ := ih (f st a) hl
      refine ⟨h1.trans (hep st a), fun t => ?_⟩
      rw [run_cons, h2, hep, hcall]
      by_cases hta : t = a
      · subst hta; simp [hal]
      · simp [hta]
  obtain ⟨h1, h2⟩ := key _ st (List.nodup_finRange 32)
  exact ⟨h1, fun t => by simp [h2]⟩

/-! ## A process is gone -/

/-- What the removal of endpoint `i` makes of a call. -/
def failedBy (e : Endpoint) (i : EpSlot) (c : Call) : Call :=
  if c.ep = i ∧ c.ep_gen = e.gen ∧ (c.state = .queued ∨ c.state = .serving) then
    { c with state := .failed, fail := ipcEDead }
  else c

/-- What the removal of a client makes of a call. -/
def cancelled (proc : AuProcess) (c : Call) : Call :=
  if c.state = .free ∨ c.client_pid ≠ proc.proc_id then c
  else if c.state = .queued ∨ c.state = .serving then { c with state := .abandoned }
  else {}

theorem failServed_g_ep (i : EpSlot) (st : State) (s : CallSlot) :
    (failServed i st s).g_ep = st.g_ep := by
  unfold failServed; split <;> simp

theorem failServed_g_call (i : EpSlot) (st : State) (s t : CallSlot) :
    (failServed i st s).g_call t =
      if t = s then failedBy (st.g_ep i) i (st.g_call s) else st.g_call t := by
  unfold failServed failedBy
  by_cases h : (st.g_call s).ep = i ∧ (st.g_call s).ep_gen = (st.g_ep i).gen ∧
      ((st.g_call s).state = .queued ∨ (st.g_call s).state = .serving)
  · have hn : (st.g_call s).state ≠ .free ∧ (st.g_call s).state ≠ .abandoned := by
      rcases h.2.2 with h | h <;> simp [h]
    rw [if_pos ⟨hn.1, h⟩, if_pos h, callFail_g_call st s t hn.2]
  · rw [if_neg fun h' => h h'.2, if_neg h]
    split <;> simp_all

theorem failServed_run (i : EpSlot) (st : State) :
    (run (failServed i) st (List.finRange 32)).g_ep = st.g_ep ∧
      ∀ t, (run (failServed i) st (List.finRange 32)).g_call t =
        failedBy (st.g_ep i) i (st.g_call t) :=
  run_local (g := fun ep c => failedBy (ep i) i c) (failServed_g_ep i) (failServed_g_call i) st

theorem cancelCall_run (proc : AuProcess) (st : State) :
    (run (cancelCall proc) st (List.finRange 32)).g_ep = st.g_ep ∧
      ∀ t, (run (cancelCall proc) st (List.finRange 32)).g_call t = cancelled proc (st.g_call t) := by
  apply run_local (g := fun _ c => cancelled proc c)
  · intro st s
    unfold cancelCall
    split_ifs <;> rfl
  · intro st s t
    unfold cancelCall cancelled
    split_ifs <;> simp_all

@[simp] theorem failedBy_ep (e : Endpoint) (i : EpSlot) (c : Call) :
    (failedBy e i c).ep = c.ep := by
  unfold failedBy; split <;> rfl

theorem failedBy_of_ne {e : Endpoint} {i : EpSlot} {c : Call} (h : c.ep ≠ i) :
    failedBy e i c = c := if_neg fun h' => h h'.1

theorem removeEndpoint_of_not {proc : AuProcess} {st : State} {i : EpSlot}
    (h : ¬ ownedBy proc (st.g_ep i)) : removeEndpoint proc st i = st := if_neg h

theorem removeEndpoint_spec {proc : AuProcess} {st : State} {i : EpSlot}
    (h : ownedBy proc (st.g_ep i)) :
    ((removeEndpoint proc st i).g_ep i).used = false ∧
      ((removeEndpoint proc st i).g_ep i).queue = [] ∧
      (∀ j, j ≠ i → (removeEndpoint proc st i).g_ep j = st.g_ep j) ∧
      ∀ s, (removeEndpoint proc st i).g_call s = failedBy (st.g_ep i) i (st.g_call s) := by
  obtain ⟨h1, h2⟩ := failServed_run i st
  simp only [removeEndpoint, if_pos h, setEp_g_ep, if_true, true_and]
  refine ⟨fun j hj => ?_, fun s => ?_⟩
  · rw [if_neg hj, h1]
  · rw [setEp_g_call, h2]

/-- What the removal of all endpoints of a process makes of a call. -/
def orphaned (st : State) (proc : AuProcess) (c : Call) : Call :=
  if h : c.ep < 16 then
    if ownedBy proc (st.g_ep ⟨c.ep, h⟩) then failedBy (st.g_ep ⟨c.ep, h⟩) ⟨c.ep, h⟩ c else c
  else c

theorem orphaned_of_not_owned {st : State} {proc : AuProcess} {c : Call} {i : EpSlot}
    (hc : c.ep = i) (h : ¬ ownedBy proc (st.g_ep i)) : orphaned st proc c = c := by
  have hlt : c.ep < 16 := hc ▸ i.isLt
  have hfin : (⟨c.ep, hlt⟩ : EpSlot) = i := Fin.ext hc
  rw [orphaned, dif_pos hlt, hfin, if_neg h]

theorem orphaned_of_state {st : State} {proc : AuProcess} {c : Call} (hq : c.state ≠ .queued)
    (hs : c.state ≠ .serving) : orphaned st proc c = c := by
  unfold orphaned failedBy
  split_ifs with h1 h2 h3
  · exact absurd h3.2.2 (by simp [hq, hs])
  all_goals rfl

theorem orphaned_of_owned {st : State} {proc : AuProcess} {c : Call} {i : EpSlot} (hep : c.ep = i)
    (hgen : c.ep_gen = (st.g_ep i).gen) (ho : ownedBy proc (st.g_ep i))
    (hst : c.state = .queued ∨ c.state = .serving) :
    orphaned st proc c = { c with state := .failed, fail := ipcEDead } := by
  have hlt : c.ep < 16 := hep ▸ i.isLt
  have hfin : (⟨c.ep, hlt⟩ : EpSlot) = i := Fin.ext hep
  rw [orphaned, dif_pos hlt, hfin, if_pos ho, failedBy, if_pos ⟨hep, hgen, hst⟩]

theorem removeEndpoints_spec (proc : AuProcess) (l : List EpSlot) (st : State) (hl : l.Nodup) :
    (∀ j, (j ∈ l ∧ ownedBy proc (st.g_ep j) →
        ((run (removeEndpoint proc) st l).g_ep j).used = false ∧
          ((run (removeEndpoint proc) st l).g_ep j).queue = []) ∧
      (¬ (j ∈ l ∧ ownedBy proc (st.g_ep j)) →
        (run (removeEndpoint proc) st l).g_ep j = st.g_ep j)) ∧
    ∀ s, (run (removeEndpoint proc) st l).g_call s =
      if ∃ i ∈ l, (st.g_call s).ep = i then orphaned st proc (st.g_call s) else st.g_call s := by
  induction l generalizing st with
  | nil => simp
  | cons a l ih =>
    obtain ⟨hal, hl⟩ := List.nodup_cons.mp hl
    by_cases ha : ownedBy proc (st.g_ep a)
    · obtain ⟨hu, hq, hep, hcall⟩ := removeEndpoint_spec ha
      obtain ⟨ih1, ih2⟩ := ih (removeEndpoint proc st a) hl
      refine ⟨fun j => ?_, fun s => ?_⟩
      · by_cases hja : j = a
        · subst hja
          have hj := (ih1 j).2 fun h => hal h.1
          simp [run_cons, hj, hu, hq, ha]
        · have hj := ih1 j
          rw [hep j hja] at hj
          simpa [run_cons, hja] using hj
      · rw [run_cons, ih2, hcall]
        by_cases hsa : (st.g_call s).ep = a
        · have hno : ¬ ∃ i ∈ l, (st.g_call s).ep = (i : ℕ) := by
            rintro ⟨i, hi, h⟩
            exact hal (Fin.ext (hsa.symm.trans h) ▸ hi)
          have hlt : (st.g_call s).ep < 16 := hsa ▸ a.isLt
          have hfin : (⟨(st.g_call s).ep, hlt⟩ : EpSlot) = a := Fin.ext hsa
          simp only [failedBy_ep, hno, if_false]
          rw [if_pos ⟨a, by simp, hsa⟩, orphaned, dif_pos hlt, hfin, if_pos ha]
        · rw [failedBy_of_ne hsa]
          have : (∃ i ∈ a :: l, (st.g_call s).ep = (i : ℕ)) ↔
              ∃ i ∈ l, (st.g_call s).ep = (i : ℕ) := by simp [hsa]
          simp only [this]
          split_ifs with hx
          · obtain ⟨i, hi, hsi⟩ := hx
            have hia : i ≠ a := fun h => hsa (h ▸ hsi)
            have hlt : (st.g_call s).ep < 16 := hsi ▸ i.isLt
            have hfin : (⟨(st.g_call s).ep, hlt⟩ : EpSlot) = i := Fin.ext hsi
            rw [orphaned, orphaned, dif_pos hlt, dif_pos hlt, hfin, hep i hia]
          · rfl
    · obtain ⟨ih1, ih2⟩ := ih st hl
      rw [run_cons, removeEndpoint_of_not ha]
      refine ⟨fun j => ?_, fun s => ?_⟩
      · by_cases hja : j = a
        · subst hja
          exact ⟨fun h => absurd h.2 ha, fun _ => (ih1 j).2 fun h => ha h.2⟩
        · simpa [hja] using ih1 j
      · rw [ih2]
        by_cases hsa : (st.g_call s).ep = a
        · have hlt : (st.g_call s).ep < 16 := hsa ▸ a.isLt
          have hfin : (⟨(st.g_call s).ep, hlt⟩ : EpSlot) = a := Fin.ext hsa
          have : orphaned st proc (st.g_call s) = st.g_call s := by
            rw [orphaned, dif_pos hlt, hfin, if_neg ha]
          simp [this]
        · simp [hsa]

/-- The endpoints of the process are removed, the others are untouched. -/
theorem processGone_g_ep (st : State) (proc : AuProcess) (i : EpSlot) :
    (ownedBy proc (st.g_ep i) → ((auIpcProcessGone st proc).g_ep i).used = false ∧
      ((auIpcProcessGone st proc).g_ep i).queue = []) ∧
    (¬ ownedBy proc (st.g_ep i) → (auIpcProcessGone st proc).g_ep i = st.g_ep i) := by
  have h := ((removeEndpoints_spec proc _ st (List.nodup_finRange 16)).1 i)
  simp only [List.mem_finRange, true_and] at h
  rwa [auIpcProcessGone, (cancelCall_run proc _).1]

/-- Every call is first failed with its endpoint, then cancelled with its client. -/
theorem processGone_g_call (st : State) (proc : AuProcess) (s : CallSlot) :
    (auIpcProcessGone st proc).g_call s = cancelled proc (orphaned st proc (st.g_call s)) := by
  have h := ((removeEndpoints_spec proc _ st (List.nodup_finRange 16)).2 s)
  rw [auIpcProcessGone, (cancelCall_run proc _).2, h]
  split_ifs with hx
  · rfl
  · have : ¬ (st.g_call s).ep < 16 := fun hlt => hx ⟨⟨_, hlt⟩, by simp, rfl⟩
    rw [orphaned, dif_neg this]

/-- The rule of the loop: if `P` survives the freeing of an abandoned head, the loop ends
in the state where `P` holds and the queue is empty, or in one where it takes a head
that is not abandoned, which it then refuses or hands out. -/
theorem recvLoop_rule (cap : ℕ) (i : EpSlot) (P : State → Prop) (st : State)
    (hpop : ∀ st s q, P st → (st.g_ep i).queue = s :: q → (st.g_call s).state = .abandoned →
      P (callFree (popQueue st i) s))
    (hP : P st) :
    ∃ mid, P mid ∧
      (((mid.g_ep i).queue = [] ∧
          recvLoop cap i (st.g_ep i).queue.length st = (mid, ipcEEmpty, none)) ∨
        ∃ s q, (mid.g_ep i).queue = s :: q ∧ (mid.g_call s).state ≠ .abandoned ∧
          (recvLoop cap i (st.g_ep i).queue.length st =
              (callFail (popQueue mid i) s ipcETooBig, ipcETooBig, none) ∨
            recvLoop cap i (st.g_ep i).queue.length st =
              ((popQueue mid i).setCall s { mid.g_call s with state := .serving }, ipcOk,
                some (s, mid.g_call s)))) := by
  generalize hn : (st.g_ep i).queue.length = n
  induction n generalizing st with
  | zero =>
    exact ⟨st, hP, .inl ⟨List.length_eq_zero_iff.mp hn, rfl⟩⟩
  | succ n ih =>
    cases hq : (st.g_ep i).queue with
    | nil => simp [hq] at hn
    | cons s q =>
      by_cases ha : (st.g_call s).state = .abandoned
      · have hlen : ((callFree (popQueue st i) s).g_ep i).queue.length = n := by
          simpa [hq] using hn
        obtain ⟨mid, hmid, h⟩ := ih _ (hpop st s q hP hq ha) hlen
        have hstep : recvLoop cap i (n + 1) st =
            recvLoop cap i n (callFree (popQueue st i) s) := by
          simp [recvLoop, hq, ha]
        exact ⟨mid, hmid, by rwa [hstep]⟩
      · refine ⟨st, hP, .inr ⟨s, q, hq, ha, ?_⟩⟩
        by_cases hcap : (st.g_call s).req.length > cap
        · left; simp [recvLoop, hq, ha, hcap]
        · right
          simp only [recvLoop, hq, popQueue_g_call, ha, if_false, hcap]

theorem recvLoop_some {st st' : State} {i : EpSlot} {cap : ℕ} {status : ℤ} {s : CallSlot}
    {c : Call} (hr : recvLoop cap i (st.g_ep i).queue.length st = (st', status, some (s, c))) :
    status = ipcOk := by
  obtain ⟨mid, -, ⟨-, hr'⟩ | ⟨t, q, -, -, hr' | hr'⟩⟩ :=
    recvLoop_rule cap i (fun _ => True) st (fun _ _ _ _ _ _ => trivial) trivial <;>
    rw [hr'] at hr <;> cases hr
  rfl

/-! ## The outcomes of each operation -/

theorem doCreate_cases (st : State) (proc : AuProcess) (r : IpcCreate) :
    (∃ out, doCreate st proc r = (st, out)) ∨
    prunes st (.create proc r) = true ∧ ((∃ out, doCreate st proc r = (ipcPruneDead st, out)) ∨
      ∃ i e counter out, doCreate st proc r =
          ({ (ipcPruneDead st).setEp i e with g_gen_counter := counter }, out) ∧
        ((ipcPruneDead st).g_ep i).used = false ∧ e.queue = [] ∧ e.owner = proc.ptr) := by
  unfold doCreate
  split
  · exact .inl ⟨_, rfl⟩
  next h1 =>
  split
  · exact .inl ⟨_, rfl⟩
  next h2 =>
  split
  · exact .inl ⟨_, rfl⟩
  next h3 =>
  have hp : prunes st (.create proc r) = true := by
    obtain ⟨hn, ha⟩ := not_or.mp h3
    simp [prunes, not_not.mp h1, not_not.mp h2, hn, Nat.le_of_not_lt ha]
  refine .inr ⟨hp, ?_⟩
  dsimp only
  split
  · exact .inl ⟨_, rfl⟩
  split
  · exact .inl ⟨_, rfl⟩
  next i hi => exact .inr ⟨i, _, _, _, rfl, by simpa using findEp_spec hi, rfl, rfl⟩

theorem doConnect_cases (st : State) (proc : AuProcess) (r : IpcConnect) :
    (∃ out, doConnect st proc r = (st, out)) ∨
    prunes st (.connect proc r) = true ∧ ∃ out, doConnect st proc r = (ipcPruneDead st, out) := by
  unfold doConnect
  split
  · exact .inl ⟨_, rfl⟩
  next h1 =>
  refine .inr ⟨by simpa [prunes] using h1, ?_⟩
  dsimp only
  split
  · exact ⟨_, rfl⟩
  split <;> exact ⟨_, rfl⟩

theorem doDestroy_cases (st : State) (proc : AuProcess) (r : IpcHandle) :
    (∃ out, doDestroy st proc r = (st, out)) ∨
    ∃ i out, doDestroy st proc r = (auIpcProcessGone st proc, out) ∧
      epFromHandle st r.handle = some i ∧ (st.g_ep i).owner = proc.ptr := by
  unfold doDestroy
  split
  · exact .inl ⟨_, rfl⟩
  split
  · exact .inl ⟨_, rfl⟩
  next i hi =>
  split
  · exact .inl ⟨_, rfl⟩
  next h2 => exact .inr ⟨i, _, rfl, hi, not_not.mp h2⟩

theorem callTarget_ok {st : State} {proc : AuProcess} {h : Word} {i : EpSlot} {s : CallSlot}
    (ht : callTarget st proc h = .ok (i, s)) :
    epFromHandle st h = some i ∧ (st.g_ep i).owner ≠ proc.ptr ∧
      (st.g_ep i).queue.length < epQueue ∧ freeSlot st = some s := by
  unfold callTarget at ht
  split at ht
  · cases ht
  next j hj =>
  split_ifs at ht with h1 h2 h3
  split at ht
  · cases ht
  next t hs =>
  cases ht
  exact ⟨hj, h1, Nat.lt_of_not_le h3, hs⟩

theorem callTarget_error {st : State} {proc : AuProcess} {h : Word} {e : ℤ}
    (ht : callTarget st proc h = .error e) : e ≠ ipcOk := by
  unfold callTarget at ht
  split at ht
  · cases ht; decide
  split at ht
  · cases ht; decide
  split at ht
  · cases ht; decide
  split at ht
  · cases ht; decide
  split at ht
  · cases ht; decide
  · cases ht

theorem doCall_cases (st : State) (proc : AuProcess) (thr : Option UInt64) (mem : Bool)
    (r : IpcCall) :
    (∃ out, doCall st proc thr mem r = (st, out) ∧ out.rc ≠ ipcOk) ∨
    prunes st (.call proc thr mem r) = true ∧
      ((∃ out, doCall st proc thr mem r = (ipcPruneDead st, out) ∧ out.status ≠ ipcOk) ∨
        ∃ i s out, doCall st proc thr mem r =
            (queueCall (ipcPruneDead st) i s proc.proc_id proc.uid proc.gid (thr.getD 0)
              r.req.bytes, out) ∧
          callTarget (ipcPruneDead st) proc r.handle = .ok (i, s) ∧
          out.rc = ipcOk ∧ out.status = ipcOk ∧
          out.call_id = makeId (((ipcPruneDead st).g_call s).gen + 1) s) := by
  unfold doCall
  split
  · exact .inl ⟨_, rfl, by decide⟩
  next h1 =>
  split
  · exact .inl ⟨_, rfl, by decide⟩
  next h2 =>
  split
  · exact .inl ⟨_, rfl, by decide⟩
  next h3 =>
  have hp : prunes st (.call proc thr mem r) = true := by
    obtain ⟨hlen, hok⟩ := not_or.mp h2
    simp [prunes, not_not.mp h1, not_not.mp h3, not_not.mp hok, Nat.le_of_not_lt hlen]
  refine .inr ⟨hp, ?_⟩
  dsimp only
  split
  · next e he => exact .inl ⟨_, rfl, callTarget_error he⟩
  · next i s hs => exact .inr ⟨i, s, _, rfl, hs, rfl, rfl, rfl⟩

theorem auIpcKCallBegin_cases (st : State) (name : List UInt8) (pid uid gid : ℤ)
    (thr : Option UInt64) (mem : Bool) (req : List UInt8) :
    (∃ out, auIpcKCallBegin st name pid uid gid thr mem req = (st, out) ∧ out.rc ≠ ipcOk) ∨
    prunes st (.kCallBegin name pid uid gid thr mem req) = true ∧
      ((∃ out, auIpcKCallBegin st name pid uid gid thr mem req = (ipcPruneDead st, out) ∧
          out.rc ≠ ipcOk) ∨
        ∃ i s out, auIpcKCallBegin st name pid uid gid thr mem req =
            (queueCall (ipcPruneDead st) i s pid uid gid (thr.getD 0) req, out) ∧
          findEp (ipcPruneDead st) (fun e => e.used && e.name == name) = some i ∧
          ((ipcPruneDead st).g_ep i).queue.length < epQueue ∧
          freeSlot (ipcPruneDead st) = some s ∧ out.rc = ipcOk ∧
          out.call_id = makeId (((ipcPruneDead st).g_call s).gen + 1) s) := by
  unfold auIpcKCallBegin
  split
  · exact .inl ⟨_, rfl, by decide⟩
  next h1 =>
  split
  · exact .inl ⟨_, rfl, by decide⟩
  next h2 =>
  have hp : prunes st (.kCallBegin name pid uid gid thr mem req) = true := by
    simp [prunes, Nat.le_of_not_lt h1, not_not.mp h2]
  refine .inr ⟨hp, ?_⟩
  dsimp only
  split
  · exact .inl ⟨_, rfl, by decide⟩
  next i hi =>
  split
  · exact .inl ⟨_, rfl, by decide⟩
  next h3 =>
  split
  · exact .inl ⟨_, rfl, by decide⟩
  next s hs => exact .inr ⟨i, s, _, rfl, hi, Nat.lt_of_not_le h3, hs, rfl, rfl⟩

theorem doFetch_cases (st : State) (proc : AuProcess) (r : IpcFetch) :
    (∃ out, doFetch st proc r = (st, out) ∧ (out.rc ≠ ipcOk ∨ out.status = ipcENoent ∧
        ∀ s, callFromId st r.call_id = some s → (st.g_call s).client_pid ≠ proc.proc_id)) ∨
    ∃ s, callFromId st r.call_id = some s ∧ (st.g_call s).client_pid = proc.proc_id ∧
      (doFetch st proc r = (callFree st s, answer (st.g_call s) r.resp.cap) ∧
          ((st.g_call s).state = .done ∨ (st.g_call s).state = .failed) ∨
        doFetch st proc r = (st.setCall s { st.g_call s with state := .abandoned },
            { rc := ipcOk, status := ipcETimeout }) ∧
          (st.g_call s).state ≠ .done ∧ (st.g_call s).state ≠ .failed) := by
  unfold doFetch
  split
  · exact .inl ⟨_, rfl, .inl (by decide)⟩
  split
  · exact .inl ⟨_, rfl, .inl (by decide)⟩
  split
  · next hn => exact .inl ⟨_, rfl, .inr ⟨rfl, fun s hs => by simp [hn] at hs⟩⟩
  next s hs =>
  split
  · next h3 => exact .inl ⟨_, rfl, .inr ⟨rfl, fun t ht => by cases hs.symm.trans ht; exact h3⟩⟩
  next h3 =>
  split
  · next h4 => exact .inr ⟨s, hs, not_not.mp h3, .inl ⟨rfl, h4⟩⟩
  · next h4 => exact .inr ⟨s, hs, not_not.mp h3, .inr ⟨rfl, not_or.mp h4⟩⟩

theorem doWait_cases (st : State) (proc : AuProcess) (thr : Option UInt64) (r : IpcWait) :
    (∃ out, doWait st proc thr r = (st, out)) ∨
    ∃ i tid out, doWait st proc thr r = (st.setEp i { st.g_ep i with waiter_tid := tid }, out) := by
  unfold doWait
  split
  · exact .inl ⟨_, rfl⟩
  split
  · exact .inl ⟨_, rfl⟩
  split
  · exact .inl ⟨_, rfl⟩
  split
  · exact .inr ⟨_, _, _, rfl⟩
  · exact .inl ⟨_, rfl⟩

theorem doRecv_cases (st : State) (proc : AuProcess) (r : IpcRecv) :
    (∃ out, doRecv st proc r = (st, out) ∧ (out.rc ≠ ipcOk ∨ out.status ≠ ipcOk)) ∨
    ∃ i, epFromHandle st r.handle = some i ∧ (st.g_ep i).owner = proc.ptr ∧
      ((∃ st' status, doRecv st proc r = (st', { rc := ipcOk, status := status }) ∧
          recvLoop r.buf.cap i (st.g_ep i).queue.length st = (st', status, none)) ∨
        ∃ st' status s c out, doRecv st proc r = (st', out) ∧
          recvLoop r.buf.cap i (st.g_ep i).queue.length st = (st', status, some (s, c)) ∧
          out.rc = ipcOk ∧ out.status = status ∧ out.call_id = makeId c.gen s ∧
          out.data = c.req) := by
  unfold doRecv
  split
  · exact .inl ⟨_, rfl, .inl (by decide)⟩
  split
  · exact .inl ⟨_, rfl, .inl (by decide)⟩
  split
  · exact .inl ⟨_, rfl, .inr (by decide)⟩
  next i hi =>
  split
  · exact .inl ⟨_, rfl, .inr (by decide)⟩
  next h3 =>
  refine .inr ⟨i, hi, not_not.mp h3, ?_⟩
  split
  · next st' status hl => exact .inl ⟨st', status, rfl, hl⟩
  · next st' status s c hl => exact .inr ⟨st', status, s, c, _, rfl, hl, rfl, rfl, rfl, rfl⟩

theorem doReply_cases (st : State) (proc : AuProcess) (mem : Bool) (r : IpcReply) :
    (∃ out, doReply st proc mem r = (st, out) ∧ out.rc ≠ ipcOk) ∨
    ∃ i s, epFromHandle st r.handle = some i ∧ (st.g_ep i).owner = proc.ptr ∧
      callFromId st r.call_id = some s ∧ (st.g_call s).ep = i ∧
      (st.g_call s).ep_gen = (st.g_ep i).gen ∧
      (doReply st proc mem r = (callFree st s, { rc := ipcOk }) ∧
          (st.g_call s).state = .abandoned ∨
        doReply st proc mem r = (wakeTid (st.setCall s { st.g_call s with
              state := .done, resp := r.resp.bytes, server_status := r.server_status })
            (st.g_call s).client_tid, { rc := ipcOk }) ∧
          (st.g_call s).state = .serving) := by
  unfold doReply
  split
  · exact .inl ⟨_, rfl, by decide⟩
  split
  · exact .inl ⟨_, rfl, by decide⟩
  split
  · exact .inl ⟨_, rfl, by decide⟩
  split
  · exact .inl ⟨_, rfl, by decide⟩
  next i hi =>
  split
  · exact .inl ⟨_, rfl, by decide⟩
  next h4 =>
  split
  · exact .inl ⟨_, rfl, by decide⟩
  next s hs =>
  split
  · exact .inl ⟨_, rfl, by decide⟩
  next h5 =>
  simp only [not_or, not_not, not_and] at h5
  refine .inr ⟨i, s, hi, not_not.mp h4, hs, h5.1, h5.2.1, ?_⟩
  split
  · next h6 => exact .inl ⟨rfl, h6⟩
  · next h6 => exact .inr ⟨rfl, by_contra fun hn => h6 (h5.2.2 hn)⟩

theorem auIpcKCallPoll_cases (st : State) (id : Word) (cap : ℕ) :
    (∃ out, auIpcKCallPoll st id cap = (st, out) ∧
      (out.rc = ipcENoent ∧ callFromId st id = none ∨ out.rc = ipcETimeout)) ∨
    ∃ s, auIpcKCallPoll st id cap = (callFree st s,
        { answer (st.g_call s) cap with rc := (answer (st.g_call s) cap).status }) ∧
      callFromId st id = some s ∧
      ((st.g_call s).state = .done ∨ (st.g_call s).state = .failed) := by
  unfold auIpcKCallPoll
  split
  · next h => exact .inl ⟨_, rfl, .inl ⟨rfl, h⟩⟩
  next s hs =>
  split
  · next h => exact .inr ⟨s, rfl, hs, h⟩
  · exact .inl ⟨_, rfl, .inr rfl⟩

theorem auIpcKCallAbandon_cases (st : State) (id : Word) :
    (callFromId st id = none ∧ auIpcKCallAbandon st id = st) ∨
    ∃ s, callFromId st id = some s ∧
      (auIpcKCallAbandon st id = st.setCall s { st.g_call s with state := .abandoned } ∧
          ((st.g_call s).state = .queued ∨ (st.g_call s).state = .serving) ∨
        auIpcKCallAbandon st id = callFree st s ∧
          (st.g_call s).state ≠ .queued ∧ (st.g_call s).state ≠ .serving) := by
  unfold auIpcKCallAbandon
  split
  · next h => exact .inl ⟨h, rfl⟩
  next s hs =>
  split
  · next h => exact .inr ⟨s, hs, .inl ⟨rfl, h⟩⟩
  · next h => exact .inr ⟨s, hs, .inr ⟨rfl, not_or.mp h⟩⟩

end Xeneva.Ipc

/-!
# What DESTROY takes away

A process that destroys an endpoint loses all of its endpoints. Those of the other processes,
and the calls between the other processes, stay as they were.
-/

namespace Xeneva.Ipc
open Base

/-- The call is in the queue of endpoint `i`, or its server works on it. -/
def WaitsAt (st : State) (i : EpSlot) (s : CallSlot) : Prop :=
  (st.g_call s).ep = i ∧ (st.g_call s).ep_gen = (st.g_ep i).gen ∧
    ((st.g_call s).state = .queued ∨ (st.g_call s).state = .serving)

def deadCall (c : Call) : Call := { c with state := .failed, fail := ipcEDead }

/-- Exactly the endpoints in `D` are removed, and exactly the calls that wait there fail, among
the calls in `C`. -/
structure Removes (D : EpSlot → Prop) (C : CallSlot → Prop) (st st' : State) : Prop where
  removed : ∀ i, D i → (st'.g_ep i).used = false ∧ (st'.g_ep i).queue = []
  kept : ∀ i, ¬D i → st'.g_ep i = st.g_ep i
  failed : ∀ s, C s → ∀ i, D i → WaitsAt st i s → st'.g_call s = deadCall (st.g_call s)
  calls : ∀ s, C s → (∀ i, D i → ¬WaitsAt st i s) → st'.g_call s = st.g_call s

variable {st : State} {proc : AuProcess} {s : CallSlot} {i : EpSlot}

/-- The client of the call is another process. -/
def OthersCall (st : State) (proc : AuProcess) (s : CallSlot) : Prop :=
  (st.g_call s).client_pid ≠ proc.proc_id

theorem cancelled_of_other {c : Call} (h : c.client_pid ≠ proc.proc_id) :
    cancelled proc c = c := if_pos (.inr h)

theorem WaitsAt.orphaned (h : WaitsAt st i s) (ho : ownedBy proc (st.g_ep i)) :
    orphaned st proc (st.g_call s) = deadCall (st.g_call s) :=
  orphaned_of_owned h.1 h.2.1 ho h.2.2

theorem orphaned_of_not_waiting (h : ∀ i, ownedBy proc (st.g_ep i) → ¬WaitsAt st i s) :
    orphaned st proc (st.g_call s) = st.g_call s := by
  unfold Ipc.orphaned
  split_ifs with hlt ho
  · unfold failedBy
    apply if_neg
    rintro ⟨hep, hgen, hst⟩
    exact h _ ho ⟨hep, hgen, hst⟩
  · rfl
  · rfl

theorem processGone_removes (st : State) (proc : AuProcess) :
    Removes (fun i => ownedBy proc (st.g_ep i)) (OthersCall st proc) st
      (auIpcProcessGone st proc) where
  removed i := (processGone_g_ep st proc i).1
  kept i := (processGone_g_ep st proc i).2
  failed s hs i hi hw := by
    rw [processGone_g_call, hw.orphaned hi]
    exact cancelled_of_other hs
  calls s hs hw := by
    rw [processGone_g_call, orphaned_of_not_waiting hw]
    exact cancelled_of_other hs

/-- In every state reached, a successful DESTROY takes the endpoint it names and the others of
its process, and fails the calls of other processes that wait there, no more. -/
theorem exec_destroy (daemonsGid : ℤ) (acts : List Act) (proc : AuProcess) (r : IpcHandle) :
    let st := (exec daemonsGid acts).1
    (doDestroy st proc r).2.rc = ipcOk →
      (∃ i, epFromHandle st r.handle = some i ∧ ownedBy proc (st.g_ep i)) ∧
        Removes (fun i => ownedBy proc (st.g_ep i)) (OthersCall st proc) st
          (doDestroy st proc r).1 := by
  intro st hrc
  unfold doDestroy at hrc ⊢
  split at hrc
  · exact absurd hrc (show ¬ipcEInval = ipcOk by decide)
  next hptr =>
  rw [if_neg hptr]
  split at hrc
  · exact absurd hrc (show ¬ipcENoent = ipcOk by decide)
  next i hi =>
  split at hrc
  · exact absurd hrc (show ¬ipcEPerm = ipcOk by decide)
  next howner =>
  rw [hi]
  simp only [if_neg howner]
  exact ⟨⟨i, rfl, epFromHandle_used hi, not_not.mp howner⟩, processGone_removes st proc⟩

def fsDaemon : AuProcess := { ptr := 0x1000, proc_id := 3, gid := 7 }

/-- The endpoints 0 and 1 of the daemon, with a call to the first one. -/
def twoEndpoints : List Act :=
  [.create fsDaemon ⟨0x10000, [0x66], 0⟩,
    .create fsDaemon ⟨0x10000, [0x67], 0⟩,
    .call { ptr := 0x3000, proc_id := 5 } none true
      ⟨0x10000, makeId 1 0, 10, ⟨0x20000, [1, 2]⟩⟩]

theorem exec_destroy_both :
    ((doDestroy (exec 7 twoEndpoints).1 fsDaemon ⟨0x10000, makeId 1 0⟩).1.g_ep 1).used = false ∧
      (doDestroy (exec 7 twoEndpoints).1 fsDaemon ⟨0x10000, makeId 1 0⟩).1.g_call 0 =
        deadCall ((exec 7 twoEndpoints).1.g_call 0) :=
  have h := (exec_destroy 7 twoEndpoints fsDaemon ⟨0x10000, makeId 1 0⟩ (by decide +kernel)).2
  ⟨(h.removed 1 (by decide +kernel)).1,
    h.failed 0 (by unfold OthersCall; decide +kernel) 0 (by decide +kernel)
      (by unfold WaitsAt; decide +kernel)⟩

/-- A DESTROY of the first endpoint removes the second one too. -/
theorem not_exec_destroy_local :
    ¬ ∀ acts proc r i, (doDestroy (exec 7 acts).1 proc r).2.rc = ipcOk →
      epFromHandle (exec 7 acts).1 r.handle = some i →
        Removes (fun j => j = i) (fun _ => True) (exec 7 acts).1
          (doDestroy (exec 7 acts).1 proc r).1 := by
  intro h
  have hr := h twoEndpoints fsDaemon ⟨0x10000, makeId 1 0⟩ 0 (by decide +kernel)
    (by decide +kernel)
  have hkept := congrArg Endpoint.used (hr.kept 1 (by decide))
  revert hkept
  decide +kernel

end Xeneva.Ipc
