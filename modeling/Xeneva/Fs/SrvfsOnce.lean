import Xeneva.Fs.Srvfs

/-!
# Operations on server files are made once
-/

namespace Xeneva.Srvfs
open Base

variable {T T' : HistTable} {t : ℕ}

def opsOf (T : HistTable) (t : ℕ) : List Op := if t ∈ T.tids then (T.hist t).ops else []

def passOf (T : HistTable) (t : ℕ) : ℕ := if t ∈ T.tids then (T.hist t).pass else 0

/-- The other histories are left alone, unless they are stale. -/
structure KeepsOthers (T T' : HistTable) (t : ℕ) (now : UInt64) : Prop where
  hist : ∀ t', t' ≠ t → T'.hist t' = T.hist t'
  sub : ∀ t', t' ≠ t → t' ∈ T'.tids → t' ∈ T.tids
  keep : ∀ t', t' ∈ T.tids → (t ∈ T.tids ∨ stale now (T.hist t') = false) → t' ∈ T'.tids

theorem KeepsOthers.refl (T : HistTable) (t : ℕ) (now : UInt64) : KeepsOthers T T t now :=
  ⟨fun _ _ => rfl, fun _ _ h => h, fun _ h _ => h⟩

theorem KeepsOthers.set {now : UInt64} (hk : KeepsOthers T T' t now) (h : Hist) :
    KeepsOthers T (T'.set t h) t now := by
  refine ⟨fun t' hne => ?_, hk.sub, hk.keep⟩
  unfold HistTable.set
  dsimp only
  rw [Function.update_of_ne hne]
  exact hk.hist t' hne

@[simp] theorem opsOf_set (h : Hist) (ht : t ∈ T.tids) : opsOf (T.set t h) t = h.ops := by
  unfold opsOf HistTable.set
  dsimp only
  rw [if_pos ht, Function.update_self]

@[simp] theorem passOf_set (h : Hist) (ht : t ∈ T.tids) : passOf (T.set t h) t = h.pass := by
  unfold passOf HistTable.set
  dsimp only
  rw [if_pos ht, Function.update_self]

/-- A thread without a history has an empty one. -/
theorem histGet_spec (T : HistTable) (t : ℕ) (now : UInt64) :
    KeepsOthers T (histGet T t now).1 t now ∧
      ((histGet T t now).2 = true → t ∈ (histGet T t now).1.tids ∧
        ((histGet T t now).1.hist t).ops = opsOf T t ∧
        ((histGet T t now).1.hist t).pass = passOf T t) ∧
      ((histGet T t now).2 = false → t ∉ T.tids ∧ t ∉ (histGet T t now).1.tids) := by
  unfold histGet
  by_cases ht : t ∈ T.tids
  · rw [if_pos ht]
    refine ⟨KeepsOthers.refl T t now, fun _ => ⟨ht, ?_, ?_⟩, fun h => by cases h⟩
    · unfold opsOf
      rw [if_pos ht]
    · unfold passOf
      rw [if_pos ht]
  · rw [if_neg ht]
    dsimp only
    have hsub : ∀ t', t' ∈ T.tids.filter (fun t => !stale now (T.hist t)) → t' ∈ T.tids :=
      fun t' h => (List.mem_filter.mp h).1
    have hkeep : ∀ t', t' ∈ T.tids → (t ∈ T.tids ∨ stale now (T.hist t') = false) →
        t' ∈ T.tids.filter fun t => !stale now (T.hist t) := by
      intro t' h hs
      refine List.mem_filter.mpr ⟨h, ?_⟩
      rw [hs.resolve_left ht]
      rfl
    split_ifs
    · refine ⟨⟨fun t' hne => ?_, fun t' hne h => ?_, fun t' h hs => ?_⟩,
        fun _ => ⟨List.mem_cons_self, ?_, ?_⟩, fun h => by cases h⟩
      · exact Function.update_of_ne hne ..
      · exact hsub t' (List.mem_of_ne_of_mem hne h)
      · exact List.mem_cons_of_mem t (hkeep t' h hs)
      · unfold opsOf HistTable.set
        dsimp only
        rw [if_neg ht, Function.update_self]
      · unfold passOf HistTable.set
        dsimp only
        rw [if_neg ht, Function.update_self]
    · exact ⟨⟨fun _ _ => rfl, fun t' _ h => hsub t' h, hkeep⟩,
        False.elim, fun _ => ⟨ht, fun h => ht (hsub t h)⟩⟩

/-! ## One operation -/

/-- What an operation does to the history: number `k` is recorded, and one that is done stays. -/
structure Recorded (ops ops' : List Op) (k : ℕ) (op : Op) : Prop where
  here : ops'[k]? = some op
  rest : ∀ i, i ≠ k → ops'[i]? = ops[i]?
  done : ∀ op₀, ops[k]? = some op₀ → op₀.state = .done → op = op₀
  length : ops'.length = max ops.length (k + 1)

theorem pollOp_some {op op' : Op} {e : Env} (h : pollOp op e = some op') :
    op'.state = .done ∧ op'.sig = op.sig ∧ op'.pos_before = op.pos_before := by
  unfold pollOp at h
  by_cases hb : (!e.bufAlloc) = true
  · rw [if_pos hb] at h
    cases h
    exact ⟨rfl, rfl, rfl⟩
  · rw [if_neg hb] at h
    split at h
    · by_cases hd : e.now ≥ op.deadline_us
      · rw [if_pos hd] at h
        cases h
        exact ⟨rfl, rfl, rfl⟩
      · rw [if_neg hd] at h
        cases h
    · cases h
      exact ⟨rfl, rfl, rfl⟩
    · cases h
      exact ⟨rfl, rfl, rfl⟩
    · cases h
      exact ⟨rfl, rfl, rfl⟩

theorem beginOp_fields (sig : UInt64) (pos : UInt32) (e : Env) :
    (beginOp sig pos e).sig = sig ∧ (beginOp sig pos e).pos_before = pos := by
  unfold beginOp
  dsimp only
  split_ifs
  · exact ⟨rfl, rfl⟩
  · exact ⟨rfl, rfl⟩
  · exact ⟨rfl, rfl⟩

theorem recorded_append {ops : List Op} (op : Op) : Recorded ops (ops ++ [op]) ops.length op := by
  refine ⟨by simp, fun i hi => ?_, fun op₀ h => ?_, by simp⟩
  · rcases Nat.lt_or_gt_of_ne hi with h | h
    · exact List.getElem?_append_left h
    · rw [List.getElem?_eq_none (by simp; omega), List.getElem?_eq_none (by omega)]
  · rw [List.getElem?_eq_none (Nat.le_refl _)] at h
    cases h

/-- The outcomes of an operation that repeats what its call did before. -/
theorem srvOp_cases (T : HistTable) (t : ℕ) (pos : UInt32) (req : FsReq) (cap : Option ℕ) (e : Env)
    (hk : passOf T t ≤ (opsOf T t).length)
    (hsig : ∀ op, (opsOf T t)[passOf T t]? = some op →
      op.sig = sigOf req.op req.flags req.len req.name) :
    (∃ T' a, srvOp T t pos req cap e = .returns T' pos a ∧ a.rc = IPC_E_BUSY ∧
        KeepsOthers T T' t e.now ∧ passOf T t = (opsOf T t).length) ∨
      ∃ T' op, Recorded (opsOf T t) (opsOf T' t) (passOf T t) op ∧ KeepsOthers T T' t e.now ∧
        t ∈ T'.tids ∧ op.sig = sigOf req.op req.flags req.len req.name ∧
        (passOf T t = (opsOf T t).length → op.pos_before = pos) ∧
        (∀ op₀, (opsOf T t)[passOf T t]? = some op₀ → op.pos_before = op₀.pos_before) ∧
        (srvOp T t pos req cap e = .sleeps T' op.pos_before (passOf T t == (opsOf T t).length) ∨
          op.state = .done ∧ passOf T' t = passOf T t + 1 ∧
            srvOp T t pos req cap e = .returns T' op.pos_before (answerOf op cap)) := by
  obtain ⟨hkeep, hfound, hfull⟩ := histGet_spec T t e.now
  unfold srvOp
  dsimp only
  cases hf : (histGet T t e.now).2 with
  | false =>
    obtain ⟨hT, -⟩ := hfull hf
    refine .inl ⟨_, _, rfl, rfl, hkeep, ?_⟩
    unfold passOf opsOf
    rw [if_neg hT, if_neg hT]
    rfl
  | true =>
    obtain ⟨ht, hops, hpass⟩ := hfound hf
    have hmatch : matchOps ((histGet T t e.now).1.hist t) ((histGet T t e.now).1.hist t).pass
        (sigOf req.op req.flags req.len req.name) = opsOf T t := by
      unfold matchOps
      rw [hops, hpass]
      split
      · rfl
      · rename_i op hop
        rw [if_neg (fun h => h (hsig op hop))]
    rw [hmatch, hpass]
    rw [if_neg (by decide)]
    cases hop : (opsOf T t)[passOf T t]? with
    | none =>
      have hlen : passOf T t = (opsOf T t).length := by
        have := List.getElem?_eq_none_iff.mp hop
        omega
      dsimp only
      split_ifs with hmax
      · exact .inl ⟨_, _, rfl, rfl, hkeep.set _, hlen⟩
      · refine .inr ⟨(histGet T t e.now).1.set t
          { born_us := ((histGet T t e.now).1.hist t).born_us
            ops := opsOf T t ++ [beginOp (sigOf req.op req.flags req.len req.name) pos e]
            pass := passOf T t + 1 }, beginOp (sigOf req.op req.flags req.len req.name) pos e,
          ?_, hkeep.set _, ht, (beginOp_fields ..).1, fun _ => (beginOp_fields ..).2,
          fun _ h => h.elim, ?_⟩
        · rw [opsOf_set _ ht, hlen]
          exact recorded_append _
        · rw [(beginOp_fields ..).2]
          cases hst : (beginOp (sigOf req.op req.flags req.len req.name) pos e).state with
          | wait =>
            left
            rw [hlen, beq_self_eq_true]
          | done => exact .inr ⟨rfl, passOf_set _ ht, rfl⟩
    | some op =>
      have hlt : passOf T t < (opsOf T t).length := (List.getElem?_eq_some_iff.mp hop).1
      have hmaxlen : (opsOf T t).length = max (opsOf T t).length (passOf T t + 1) := by omega
      dsimp only
      refine .inr ?_
      cases hst : op.state with
      | done =>
        refine ⟨(histGet T t e.now).1.set t
          { born_us := ((histGet T t e.now).1.hist t).born_us
            ops := opsOf T t, pass := passOf T t + 1 }, op, ?_, hkeep.set _, ht, hsig op hop,
          fun h => by omega, fun op₀ h => ?_, .inr ⟨hst, passOf_set _ ht, rfl⟩⟩
        · rw [opsOf_set _ ht]
          exact ⟨hop, fun _ _ => rfl, fun op₀ h _ => Option.some.inj (hop.symm.trans h), hmaxlen⟩
        · rw [Option.some.inj h]
      | wait =>
        have hwait : ∀ op', ∀ op₀, (opsOf T t)[passOf T t]? = some op₀ → op₀.state = .done →
            op' = op₀ := by
          intro op' op₀ h hd
          rw [← Option.some.inj (hop.symm.trans h), hst] at hd
          cases hd
        dsimp only
        cases hp : pollOp op e with
        | none =>
          refine ⟨(histGet T t e.now).1.set t
            { born_us := ((histGet T t e.now).1.hist t).born_us
              ops := opsOf T t, pass := passOf T t + 1 }, op, ?_, hkeep.set _, ht, hsig op hop,
            fun h => by omega, fun op₀ h => ?_, .inl ?_⟩
          · rw [opsOf_set _ ht]
            exact ⟨hop, fun _ _ => rfl, hwait op, hmaxlen⟩
          · rw [Option.some.inj h]
          · rw [beq_eq_false_iff_ne.mpr (by omega)]
        | some op' =>
          obtain ⟨hd, hs, hpos⟩ := pollOp_some hp
          refine ⟨(histGet T t e.now).1.set t
            { born_us := ((histGet T t e.now).1.hist t).born_us
              ops := (opsOf T t).set (passOf T t) op', pass := passOf T t + 1 }, op', ?_,
            hkeep.set _, ht, hs.trans (hsig op hop), fun h => by omega, fun op₀ h => ?_,
            .inr ⟨hd, passOf_set _ ht, by rw [hpos]⟩⟩
          · rw [opsOf_set _ ht]
            refine ⟨?_, fun i hi => ?_, hwait op', ?_⟩
            · rw [List.getElem?_set_self hlt]
            · rw [List.getElem?_set_ne hi.symm]
            · rw [List.length_set]
              exact hmaxlen
          · rw [hpos, Option.some.inj h]

/-! ## The invariant -/

/-- The signature of operation `i` of a call. -/
def Call.sig (c : Call) (name : List UInt8) (i : ℕ) : UInt64 :=
  sigOf (if c.write then FSSRV_OP_WRITE else FSSRV_OP_READ) 0
    (UInt32.ofNat (c.chunk (i * PAGE_SIZE))) name

def Call.cap (c : Call) : Option ℕ := if c.write then none else some (c.chunk 0)

/-- The call goes on after operation `i`. -/
def Call.Continues (c : Call) (i : ℕ) : Prop := c.write = true ∧ (i + 1) * PAGE_SIZE < c.length

def Op.Good (op : Op) : Prop :=
  op.state = .done ∧ op.rc = IPC_OK ∧ op.resp.status = FSSRV_OK

/-- The history of a call under way: the operations it has made, in order, each from the
position that the earlier ones lead to. -/
structure CallOk (c : Call) (x : Thread) (ops : List Op) (pass : ℕ) (file : AuVFSNode) : Prop where
  alive : x.dead = false
  sig : ∀ i op, ops[i]? = some op →
    op.sig = c.sig file.filename i ∧ op.pos_before = x.start + UInt32.ofNat (i * PAGE_SIZE)
  prior : ∀ i op, ops[i]? = some op → i + 1 < ops.length → op.Good ∧ c.Continues i
  asleep : x.running = false → 0 < ops.length
  pass_eq : x.running = true → pass = x.k
  k_le : x.running = true → x.k ≤ ops.length
  done_eq : x.running = true → x.done = x.k * PAGE_SIZE
  before : x.running = true → ∀ i op, i < x.k → ops[i]? = some op → op.Good ∧ c.Continues i
  pos_eq : x.running = true → x.k = ops.length →
    file.pos = x.start + UInt32.ofNat (x.k * PAGE_SIZE)

/-- What the logs have of a call under way. -/
structure LogOk (c : Call) (sid : ℕ) (ops : List Op) (s : Machine) : Prop where
  sid_lt : sid < s.next
  sent : ∀ i, (sid, i) ∈ s.sent → i < ops.length
  answered : ∀ i a, (sid, i, a) ∈ s.answered →
    ∃ op, ops[i]? = some op ∧ op.state = .done ∧ a = answerOf op c.cap

structure Inv (s : Machine) : Prop where
  once : ExactlyOnce s
  sent_lt : ∀ e ∈ s.sent, e.1 < s.next
  answered_lt : ∀ e ∈ s.answered, e.1 < s.next
  calls : ∀ t c, (s.thr t).call = some c →
    CallOk c (s.thr t) (opsOf s.table t) (passOf s.table t) (s.files c.file) ∧
      LogOk c (s.thr t).sid (opsOf s.table t) s
  idle : ∀ t, (s.thr t).call = none → (s.thr t).dead = false → t ∉ s.table.tids
  apart : ∀ t t' c c', (s.thr t).call = some c → (s.thr t').call = some c' → t ≠ t' →
    (s.thr t).sid ≠ (s.thr t').sid ∧ c.file ≠ c'.file

variable {s s' : Machine} {c : Call}

/-- A step of one thread: the calls of the others see only their own histories, files and log. -/
structure Local (s s' : Machine) (t : ℕ) : Prop where
  thr : ∀ t', t' ≠ t → s'.thr t' = s.thr t'
  table : ∀ t' c', t' ≠ t → (s.thr t').call = some c' →
    opsOf s'.table t' = opsOf s.table t' ∧ passOf s'.table t' = passOf s.table t' ∧
      s'.files c'.file = s.files c'.file
  tids : ∀ t', t' ≠ t → t' ∈ s'.table.tids → t' ∈ s.table.tids
  next : s.next ≤ s'.next
  sent : ∀ e ∈ s'.sent, e ∈ s.sent ∨ (s.thr t).call ≠ none ∧ e.1 = (s.thr t).sid
  answered : ∀ e ∈ s'.answered, e ∈ s.answered ∨ (s.thr t).call ≠ none ∧ e.1 = (s.thr t).sid
  call : ∀ c, (s'.thr t).call = some c →
    (s.thr t).call = some c ∧ (s'.thr t).sid = (s.thr t).sid ∨
      (s'.thr t).sid = s.next ∧ ∀ t' c', (s.thr t').call = some c' → c'.file ≠ c.file

theorem Inv.local (hi : Inv s) (hl : Local s s' t) (honce : ExactlyOnce s')
    (hcall : ∀ c, (s'.thr t).call = some c →
      CallOk c (s'.thr t) (opsOf s'.table t) (passOf s'.table t) (s'.files c.file) ∧
        LogOk c (s'.thr t).sid (opsOf s'.table t) s')
    (hidle : (s'.thr t).call = none → (s'.thr t).dead = false → t ∉ s'.table.tids) : Inv s' := by
  have hsid : (s.thr t).call ≠ none → (s.thr t).sid < s.next := by
    intro h
    obtain ⟨c, hc⟩ := Option.ne_none_iff_exists'.mp h
    exact (hi.calls t c hc).2.sid_lt
  have hnot : ∀ t' c', t' ≠ t → (s.thr t').call = some c' → (s.thr t).call ≠ none →
      (s.thr t').sid ≠ (s.thr t).sid := by
    intro t' c' hne h' h
    obtain ⟨c, hc⟩ := Option.ne_none_iff_exists'.mp h
    exact (hi.apart t' t c' c h' hc hne).1
  refine ⟨honce, fun e he => ?_, fun e he => ?_, fun t' c' h => ?_, fun t' h hd => ?_, ?_⟩
  · rcases hl.sent e he with h | ⟨h, h'⟩
    · exact Nat.lt_of_lt_of_le (hi.sent_lt e h) hl.next
    · rw [h']
      exact Nat.lt_of_lt_of_le (hsid h) hl.next
  · rcases hl.answered e he with h | ⟨h, h'⟩
    · exact Nat.lt_of_lt_of_le (hi.answered_lt e h) hl.next
    · rw [h']
      exact Nat.lt_of_lt_of_le (hsid h) hl.next
  · by_cases ht : t' = t
    · rw [ht] at h ⊢
      exact hcall c' h
    · rw [hl.thr t' ht] at h ⊢
      obtain ⟨hops, hpass, hfile⟩ := hl.table t' c' ht h
      obtain ⟨hc, hlt, hsent, hans⟩ := hi.calls t' c' h
      rw [hops, hpass, hfile]
      refine ⟨hc, Nat.lt_of_lt_of_le hlt hl.next, fun i hm => ?_, fun i a hm => ?_⟩
      · rcases hl.sent _ hm with hm | ⟨hs, he⟩
        · exact hsent i hm
        · exact absurd he (hnot t' c' ht h hs)
      · rcases hl.answered _ hm with hm | ⟨hs, he⟩
        · exact hans i a hm
        · exact absurd he (hnot t' c' ht h hs)
  · by_cases ht : t' = t
    · rw [ht] at h hd ⊢
      exact hidle h hd
    · rw [hl.thr t' ht] at h hd
      exact fun hm => hi.idle t' h hd (hl.tids t' ht hm)
  · -- the thread's call is the one it had, or has a new number and a file of its own
    have hself : ∀ t' c c', t' ≠ t → (s'.thr t).call = some c → (s.thr t').call = some c' →
        (s'.thr t).sid ≠ (s.thr t').sid ∧ c.file ≠ c'.file := by
      intro t' c c' hne h h'
      rcases hl.call c h with ⟨hc, hs⟩ | ⟨hs, hf⟩
      · rw [hs]
        exact hi.apart t t' c c' hc h' hne.symm
      · have := (hi.calls t' c' h').2.sid_lt
        exact ⟨by omega, (hf t' c' h').symm⟩
    intro t1 t2 c1 c2 h1 h2 hne
    by_cases ht1 : t1 = t
    · have ht2 : t2 ≠ t := fun h => hne (ht1.trans h.symm)
      rw [ht1] at h1 ⊢
      rw [hl.thr t2 ht2] at h2 ⊢
      exact hself t2 c1 c2 ht2 h1 h2
    · rw [hl.thr t1 ht1] at h1 ⊢
      by_cases ht2 : t2 = t
      · rw [ht2] at h2 ⊢
        obtain ⟨h, h'⟩ := hself t1 c2 c1 ht1 h2 h1
        exact ⟨h.symm, h'.symm⟩
      · rw [hl.thr t2 ht2] at h2 ⊢
        exact hi.apart t1 t2 c1 c2 h1 h2 hne

/-! ## Entry and restart -/

theorem syscallEnter_tids (T : HistTable) (t : ℕ) : (syscallEnter T t).tids = T.tids := by
  unfold syscallEnter
  split_ifs <;> rfl

theorem syscallEnter_hist (T : HistTable) {t t' : ℕ} (h : t' ≠ t) :
    (syscallEnter T t).hist t' = T.hist t' := by
  unfold syscallEnter
  split_ifs
  · unfold HistTable.set
    exact Function.update_of_ne h ..
  · rfl

theorem opsOf_syscallEnter (T : HistTable) (t : ℕ) : opsOf (syscallEnter T t) t = opsOf T t := by
  unfold syscallEnter
  split_ifs with h
  · rw [opsOf_set _ h]
    unfold opsOf
    rw [if_pos h]
  · rfl

theorem passOf_syscallEnter (T : HistTable) (t : ℕ) : passOf (syscallEnter T t) t = 0 := by
  unfold syscallEnter
  split_ifs with h
  · rw [passOf_set _ h]
  · unfold passOf
    rw [if_neg h]

theorem opsOf_of_notMem (h : t ∉ T.tids) : opsOf T t = [] := by
  unfold opsOf
  rw [if_neg h]

theorem opsOf_congr {U : HistTable} (hm : t ∈ U.tids ↔ t ∈ T.tids) (hh : U.hist t = T.hist t) :
    opsOf U t = opsOf T t ∧ passOf U t = passOf T t := by
  unfold opsOf passOf
  rw [hh]
  exact ⟨if_congr hm rfl rfl, if_congr hm rfl rfl⟩

@[simp] theorem setThr_self (s : Machine) (t : ℕ) (x : Thread) : (s.setThr t x).thr t = x :=
  Function.update_self ..

theorem setThr_ne (s : Machine) {t t' : ℕ} (x : Thread) (h : t' ≠ t) :
    (s.setThr t x).thr t' = s.thr t' := Function.update_of_ne h ..

theorem Inv.enter (hi : Inv s) (hc0 : (s.thr t).call = none) (hd : (s.thr t).dead = false)
    (halone : s.Alone c.file) :
    Inv ({ s with table := syscallEnter s.table t, next := s.next + 1 }.setThr t
      { call := some c, running := true, sid := s.next, start := (s.files c.file).pos }) := by
  have hT := hi.idle t hc0 hd
  have hnil : opsOf (syscallEnter s.table t) t = [] := by
    rw [opsOf_syscallEnter]
    exact opsOf_of_notMem hT
  refine hi.local (t := t) ⟨fun t' h => setThr_ne _ _ h, fun t' c' hne h => ?_, fun t' hne h => ?_,
    Nat.le_succ _, fun _ => .inl, fun _ => .inl, fun c' h => ?_⟩
    ⟨hi.once.sent, hi.once.answered, hi.once.completed⟩ (fun c' h => ?_) fun h _ => ?_
  · obtain ⟨h1, h2⟩ := opsOf_congr (t := t') (U := syscallEnter s.table t) (T := s.table)
      (by rw [syscallEnter_tids]) (syscallEnter_hist _ hne)
    exact ⟨h1, h2, rfl⟩
  · have h : t' ∈ (syscallEnter s.table t).tids := h
    rwa [syscallEnter_tids] at h
  · rw [setThr_self] at h ⊢
    cases h
    exact .inr ⟨rfl, halone⟩
  · rw [setThr_self] at h ⊢
    cases h
    show CallOk c _ (opsOf (syscallEnter s.table t) t) (passOf (syscallEnter s.table t) t)
        (s.files c.file) ∧
      LogOk c s.next (opsOf (syscallEnter s.table t) t) _
    rw [hnil, passOf_syscallEnter]
    refine ⟨⟨rfl, fun i op h => ?_, fun i op h => ?_, fun h => ?_, fun _ => rfl, fun _ => Nat.le_refl _,
      fun _ => (Nat.zero_mul _).symm, fun _ i op hlt => absurd hlt (Nat.not_lt_zero i), fun _ _ => ?_⟩,
      Nat.lt_succ_self _, fun i h => ?_, fun i a h => ?_⟩
    · cases h
    · cases h
    · cases h
    · show (s.files c.file).pos = (s.files c.file).pos + UInt32.ofNat (0 * PAGE_SIZE)
      rw [Nat.zero_mul]
      exact (UInt32.add_zero _).symm
    · exact absurd (hi.sent_lt _ h) (Nat.lt_irrefl _)
    · exact absurd (hi.answered_lt _ h) (Nat.lt_irrefl _)
  · rw [setThr_self] at h
    cases h

theorem Inv.restart (hi : Inv s) (hc : (s.thr t).call = some c)
    (hr : (s.thr t).running = false) :
    Inv ({ s with table := syscallEnter s.table t }.setThr t
      { s.thr t with running := true, done := 0, k := 0 }) := by
  obtain ⟨hcall, hlog⟩ := hi.calls t c hc
  refine hi.local (t := t) ⟨fun t' h => setThr_ne _ _ h, fun t' c' hne h => ?_, fun t' hne h => ?_,
    Nat.le_refl _, fun _ => .inl, fun _ => .inl, fun c' h => ?_⟩
    ⟨hi.once.sent, hi.once.answered, hi.once.completed⟩ (fun c' h => ?_) fun h _ => ?_
  · obtain ⟨h1, h2⟩ := opsOf_congr (t := t') (U := syscallEnter s.table t) (T := s.table)
      (by rw [syscallEnter_tids]) (syscallEnter_hist _ hne)
    exact ⟨h1, h2, rfl⟩
  · have h : t' ∈ (syscallEnter s.table t).tids := h
    rwa [syscallEnter_tids] at h
  · rw [setThr_self] at h ⊢
    exact .inl ⟨h, rfl⟩
  · rw [setThr_self] at h ⊢
    have he : c = c' := Option.some.inj (hc.symm.trans h)
    cases he
    show CallOk c _ (opsOf (syscallEnter s.table t) t) (passOf (syscallEnter s.table t) t)
        (s.files c.file) ∧
      LogOk c (s.thr t).sid (opsOf (syscallEnter s.table t) t) _
    rw [opsOf_syscallEnter, passOf_syscallEnter]
    have hpos := hcall.asleep hr
    exact ⟨⟨hcall.alive, hcall.sig, hcall.prior, fun h => (by cases h), fun _ => rfl,
      fun _ => Nat.zero_le _, fun _ => (Nat.zero_mul _).symm,
      fun _ i op hlt => absurd hlt (Nat.not_lt_zero i), fun _ h => absurd h (Nat.ne_of_lt hpos)⟩,
      hlog.sid_lt, hlog.sent, hlog.answered⟩
  · rw [setThr_self] at h
    exact absurd (hc.symm.trans h) (Option.some_ne_none _)

/-! ## One operation of a call -/

variable {x : Thread} {ops ops' : List Op} {op : Op} {file : AuVFSNode} {pass : ℕ}

theorem CallOk.record (hc : CallOk c x ops pass file) (hr : x.running = true)
    (hrec : Recorded ops ops' x.k op) (hsig : op.sig = c.sig file.filename x.k)
    (hpos : op.pos_before = x.start + UInt32.ofNat (x.k * PAGE_SIZE)) :
    (∀ i op', ops'[i]? = some op' → op'.sig = c.sig file.filename i ∧
        op'.pos_before = x.start + UInt32.ofNat (i * PAGE_SIZE)) ∧
      ∀ i op', ops'[i]? = some op' → i + 1 < ops'.length → op'.Good ∧ c.Continues i := by
  refine ⟨fun i op' h => ?_, fun i op' h hlt => ?_⟩
  · by_cases hi : i = x.k
    · rw [hi, hrec.here] at h
      rw [hi, ← Option.some.inj h]
      exact ⟨hsig, hpos⟩
    · rw [hrec.rest i hi] at h
      exact hc.sig i op' h
  · rw [hrec.length] at hlt
    by_cases hi : i = x.k
    · -- it is not the last, so it was done before
      have hk : x.k < ops.length := by omega
      obtain ⟨hgood, hcont⟩ := hc.prior x.k _ (List.getElem?_eq_getElem hk) (by omega)
      have he := hrec.done _ (List.getElem?_eq_getElem hk) hgood.1
      rw [hi, hrec.here] at h
      rw [hi, ← Option.some.inj h, he]
      exact ⟨hgood, hcont⟩
    · rw [hrec.rest i hi] at h
      by_cases hik : i < x.k
      · exact hc.before hr i op' hik h
      · exact hc.prior i op' h (by omega)

theorem LogOk.record {sid k : ℕ} (hl : LogOk c sid ops s) (hrec : Recorded ops ops' k op)
    (hnext : s.next ≤ s'.next)
    (hsent : ∀ i, (sid, i) ∈ s'.sent → (sid, i) ∈ s.sent ∨ i = k)
    (hans : ∀ i a, (sid, i, a) ∈ s'.answered →
      (sid, i, a) ∈ s.answered ∨ i = k ∧ op.state = .done ∧ a = answerOf op c.cap) :
    LogOk c sid ops' s' := by
  refine ⟨Nat.lt_of_lt_of_le hl.sid_lt hnext, fun i h => ?_, fun i a h => ?_⟩
  · rw [hrec.length]
    rcases hsent i h with h | h
    · have := hl.sent i h
      omega
    · omega
  · rcases hans i a h with h | ⟨hi, hd, ha⟩
    · obtain ⟨op₀, h0, hd, ha⟩ := hl.answered i a h
      by_cases hi : i = k
      · rw [hi] at h0 ⊢
        have he := hrec.done op₀ h0 hd
        exact ⟨op, hrec.here, by rw [he]; exact hd, by rw [he]; exact ha⟩
      · exact ⟨op₀, (hrec.rest i hi).trans h0, hd, ha⟩
    · rw [hi]
      exact ⟨op, hrec.here, hd, ha⟩

/-- An operation that is answered again is answered the same. -/
theorem LogOk.same {sid k : ℕ} (hl : LogOk c sid ops s) (hrec : Recorded ops ops' k op)
    {a : Answer} (h : (sid, k, a) ∈ s.answered) : a = answerOf op c.cap := by
  obtain ⟨op₀, h0, hd, ha⟩ := hl.answered k a h
  rw [hrec.done op₀ h0 hd]
  exact ha

theorem ofNat_page_succ (k : ℕ) : UInt32.ofNat (k * PAGE_SIZE) + UInt32.ofNat PAGE_SIZE =
    UInt32.ofNat ((k + 1) * PAGE_SIZE) := by
  rw [Nat.add_mul, Nat.one_mul, UInt32.ofNat_add]

/-- The file moves by what the operation returns; a write that returns something was good. -/
theorem srvEnd_spec (c : Call) (file : AuVFSNode) (length : ℕ) (a : Answer) :
    let r := if c.write then srvWriteEnd file length a else srvReadEnd file a
    r.1.pos = file.pos + UInt32.ofNat r.2 ∧ r.1.filename = file.filename ∧
      (c.write = true → r.2 ≠ 0 → a.rc = IPC_OK ∧ a.resp.status = FSSRV_OK ∧ r.2 = length) := by
  dsimp only
  have hzero : file.pos = file.pos + UInt32.ofNat 0 := (UInt32.add_zero _).symm
  cases c.write with
  | true =>
    rw [if_pos rfl]
    unfold srvWriteEnd
    split_ifs with h
    · exact ⟨hzero, rfl, fun _ h => absurd rfl h⟩
    · exact ⟨rfl, rfl, fun _ _ => ⟨not_not.mp fun h' => h (.inl h'),
        not_not.mp fun h' => h (.inr h'), rfl⟩⟩
  | false =>
    rw [if_neg Bool.false_ne_true]
    unfold srvReadEnd
    split_ifs with h
    · exact ⟨hzero, rfl, fun h => by cases h⟩
    · exact ⟨rfl, rfl, fun h => by cases h⟩
    · exact ⟨rfl, rfl, fun h => by cases h⟩

theorem answerOf_rc (op : Op) (cap : Option ℕ) : (answerOf op cap).rc = op.rc := by
  unfold answerOf
  by_cases h : op.rc = IPC_OK
  · rw [if_pos h]
    cases cap with
    | none => rfl
    | some n =>
      dsimp only
      split_ifs <;> rfl
  · rw [if_neg h]

theorem answerOf_status {op : Op} (cap : Option ℕ) (h : op.rc = IPC_OK) :
    (answerOf op cap).resp.status = op.resp.status := by
  unfold answerOf
  rw [if_pos h]
  cases cap with
  | none => rfl
  | some n =>
    dsimp only
    split_ifs <;> rfl

theorem syscallExit_tids {t' : ℕ} (T : HistTable) (t : ℕ) :
    t' ∈ (syscallExit T t).tids ↔ t' ∈ T.tids ∧ t' ≠ t := by
  unfold syscallExit
  split_ifs with h
  · unfold histDrop
    simp
  · refine ⟨fun h' => ⟨h', fun he => h (he ▸ h')⟩, And.left⟩

theorem syscallExit_hist (T : HistTable) (t : ℕ) : (syscallExit T t).hist = T.hist := by
  unfold syscallExit
  split_ifs <;> rfl

/-- The histories of the other calls under way are kept. -/
theorem keeps_of_kind {e : Env} (hk : Kind s (.op t e))
    (hkeep : KeepsOthers s.table T' t e.now) {t' : ℕ} {c' : Call} (hne : t' ≠ t)
    (hc' : (s.thr t').call = some c') :
    opsOf T' t' = opsOf s.table t' ∧ passOf T' t' = passOf s.table t' := by
  refine opsOf_congr ⟨hkeep.sub t' hne, fun h => hkeep.keep t' h ?_⟩ (hkeep.hist t' hne)
  by_cases ht : t ∈ s.table.tids
  · exact .inl ht
  · exact .inr (hk ht t' h (by rw [hc']; exact Option.some_ne_none _))

/-- One more answer that is the one given before. -/
theorem answered_cons (hi : Inv s) {sid k : ℕ} {a : Answer}
    (hsame : ∀ b, (sid, k, b) ∈ s.answered → b = a) (sid' k' : ℕ) (b b' : Answer)
    (hb : (sid', k', b) ∈ (sid, k, a) :: s.answered)
    (hb' : (sid', k', b') ∈ (sid, k, a) :: s.answered) : b = b' := by
  have hone : ∀ x, (sid', k', x) ∈ (sid, k, a) :: s.answered → sid' = sid ∧ k' = k → x = a := by
    intro x hx he
    rcases List.mem_cons.mp hx with h | h
    · exact (Prod.mk.inj (Prod.mk.inj h).2).2
    · rw [he.1, he.2] at h
      exact hsame x h
  by_cases he : sid' = sid ∧ k' = k
  · exact (hone b hb he).trans (hone b' hb' he).symm
  · have hold : ∀ x, (sid', k', x) ∈ (sid, k, a) :: s.answered → (sid', k', x) ∈ s.answered := by
      intro x hx
      rcases List.mem_cons.mp hx with h | h
      · exact absurd ⟨(Prod.mk.inj h).1, (Prod.mk.inj (Prod.mk.inj h).2).1⟩ he
      · exact h
    exact hi.once.answered sid' k' b b' (hold b hb) (hold b' hb')

/-- The call goes to sleep on an operation. -/
theorem Inv.sleep (hi : Inv s) (hc : (s.thr t).call = some c) (hr : (s.thr t).running = true)
    {e : Env} (hk : Kind s (.op t e)) (hkeep : KeepsOthers s.table T' t e.now)
    (hrec : Recorded (opsOf s.table t) (opsOf T' t) (s.thr t).k op)
    (hsig : op.sig = c.sig (s.files c.file).filename (s.thr t).k)
    (hpos : op.pos_before = (s.thr t).start + UInt32.ofNat ((s.thr t).k * PAGE_SIZE)) :
    Inv ({ s with
      table := T'
      sent := if (s.thr t).k == (opsOf s.table t).length then
        ((s.thr t).sid, (s.thr t).k) :: s.sent else s.sent
      files := Function.update s.files c.file { s.files c.file with pos := op.pos_before } }.setThr t
        { s.thr t with running := false }) := by
  obtain ⟨hcall, hlog⟩ := hi.calls t c hc
  obtain ⟨hsigs, hprior⟩ := hcall.record hr hrec hsig hpos
  have hmem : ∀ e, e ∈ (if (s.thr t).k == (opsOf s.table t).length then
      ((s.thr t).sid, (s.thr t).k) :: s.sent else s.sent) →
      e ∈ s.sent ∨ e = ((s.thr t).sid, (s.thr t).k) := by
    intro e he
    split_ifs at he
    · exact (List.mem_cons.mp he).symm
    · exact .inl he
  refine hi.local (t := t) ⟨fun t' h => setThr_ne _ _ h, fun t' c' hne h => ?_,
    fun t' hne h => hkeep.sub t' hne h, Nat.le_refl _, fun e he => ?_, fun _ => .inl, fun c' h => ?_⟩
    ⟨?_, hi.once.answered, hi.once.completed⟩ (fun c' h => ?_) fun h _ => ?_
  · obtain ⟨h1, h2⟩ := keeps_of_kind hk hkeep hne h
    exact ⟨h1, h2, Function.update_of_ne (hi.apart t' t c' c h hc hne).2 ..⟩
  · rcases hmem e he with h | h
    · exact .inl h
    · rw [h]
      exact .inr ⟨by rw [hc]; exact Option.some_ne_none _, rfl⟩
  · rw [setThr_self] at h ⊢
    exact .inl ⟨h, rfl⟩
  · show List.Nodup (if (s.thr t).k == (opsOf s.table t).length then
      ((s.thr t).sid, (s.thr t).k) :: s.sent else s.sent)
    split_ifs with h
    · refine List.nodup_cons.mpr ⟨fun hm => ?_, hi.once.sent⟩
      have hlt := hlog.sent _ hm
      have he := beq_iff_eq.mp h
      omega
    · exact hi.once.sent
  · rw [setThr_self] at h ⊢
    have he : c = c' := Option.some.inj (hc.symm.trans h)
    cases he
    show CallOk c _ (opsOf T' t) (passOf T' t) (Function.update s.files c.file _ c.file) ∧
      LogOk c (s.thr t).sid (opsOf T' t) _
    rw [Function.update_self]
    refine ⟨⟨hcall.alive, hsigs, hprior, fun _ => ?_, fun h => (by cases h), fun h => (by cases h),
      fun h => (by cases h), fun h => (by cases h), fun h => (by cases h)⟩,
      hlog.record hrec (Nat.le_refl _) (fun i h => ?_) fun i a h => .inl h⟩
    · rw [hrec.length]
      omega
    · rcases hmem _ h with h | h
      · exact .inl h
      · exact .inr (Prod.mk.inj h).2
  · rw [setThr_self] at h
    exact absurd (hc.symm.trans h) (Option.some_ne_none _)

/-- The call returns after an operation. -/
theorem Inv.finish (hi : Inv s) (hc : (s.thr t).call = some c) {e : Env} (hk : Kind s (.op t e))
    (hkeep : KeepsOthers s.table T' t e.now) {a : Answer} {file : AuVFSNode} {done : ℕ}
    (hsame : ∀ b, ((s.thr t).sid, (s.thr t).k, b) ∈ s.answered → b = a)
    (hpos : file.pos = (s.thr t).start + UInt32.ofNat done) :
    Inv ((({ s with
        table := T'
        answered := ((s.thr t).sid, (s.thr t).k, a) :: s.answered }.setFile c.file file).setThr t
          { s.thr t with done, k := (s.thr t).k + 1 }).finish t c.file done) := by
  have hself : (((({ s with
        table := T'
        answered := ((s.thr t).sid, (s.thr t).k, a) :: s.answered }.setFile c.file file).setThr t
          { s.thr t with done, k := (s.thr t).k + 1 }).finish t c.file done).thr t).call = none := by
    unfold Machine.finish
    rw [setThr_self]
  refine hi.local (t := t) ⟨fun t' h => ?_, fun t' c' hne h => ?_, fun t' hne h => ?_,
    Nat.le_refl _, fun _ => .inl, fun e he => ?_, fun c' h => ?_⟩
    ⟨hi.once.sent, answered_cons hi hsame, fun x hx => ?_⟩ (fun c' h => ?_) fun h _ hm => ?_
  · exact (setThr_ne _ _ h).trans (setThr_ne _ _ h)
  · obtain ⟨h1, h2⟩ := keeps_of_kind hk hkeep hne h
    obtain ⟨h3, h4⟩ := opsOf_congr (U := syscallExit T' t) (T := T') (t := t')
      ⟨fun h => ((syscallExit_tids T' t).mp h).1, fun h => (syscallExit_tids T' t).mpr ⟨h, hne⟩⟩
      (by rw [syscallExit_hist])
    exact ⟨h3.trans h1, h4.trans h2, Function.update_of_ne (hi.apart t' t c' c h hc hne).2 ..⟩
  · exact hkeep.sub t' hne ((syscallExit_tids T' t).mp h).1
  · rcases List.mem_cons.mp he with h | h
    · rw [h]
      exact .inr ⟨by rw [hc]; exact Option.some_ne_none _, rfl⟩
    · exact .inl h
  · exact absurd (hself.symm.trans h) (Option.some_ne_none _).symm
  · rcases List.mem_cons.mp hx with h | h
    · rw [h]
      show (Function.update s.files c.file file c.file).pos -
        (Function.update s.thr t { s.thr t with done, k := (s.thr t).k + 1 } t).start =
        UInt32.ofNat done
      rw [Function.update_self, Function.update_self, hpos]
      dsimp only
      rw [UInt32.add_comm, UInt32.add_sub_cancel]
    · exact hi.once.completed x h
  · exact absurd (hself.symm.trans h) (Option.some_ne_none _).symm
  · exact ((syscallExit_tids T' t).mp hm).2 rfl

/-- The call goes on after an operation. -/
theorem Inv.goOn (hi : Inv s) (hc : (s.thr t).call = some c) (hr : (s.thr t).running = true)
    {e : Env} (hk : Kind s (.op t e)) (hkeep : KeepsOthers s.table T' t e.now)
    (hrec : Recorded (opsOf s.table t) (opsOf T' t) (s.thr t).k op)
    (hpass : passOf T' t = (s.thr t).k + 1)
    (hsig : op.sig = c.sig (s.files c.file).filename (s.thr t).k)
    (hpos : op.pos_before = (s.thr t).start + UInt32.ofNat ((s.thr t).k * PAGE_SIZE))
    (hgood : op.Good) (hcont : c.Continues (s.thr t).k) {file : AuVFSNode}
    (hname : file.filename = (s.files c.file).filename)
    (hfile : file.pos = (s.thr t).start + UInt32.ofNat (((s.thr t).k + 1) * PAGE_SIZE)) :
    Inv (({ s with
        table := T'
        answered := ((s.thr t).sid, (s.thr t).k, answerOf op c.cap) :: s.answered }.setFile
          c.file file).setThr t
            { s.thr t with done := ((s.thr t).k + 1) * PAGE_SIZE, k := (s.thr t).k + 1 }) := by
  obtain ⟨hcall, hlog⟩ := hi.calls t c hc
  obtain ⟨hsigs, hprior⟩ := hcall.record hr hrec hsig hpos
  have hlen := hrec.length
  have hle := hcall.k_le hr
  refine hi.local (t := t) ⟨fun t' h => setThr_ne _ _ h, fun t' c' hne h => ?_,
    fun t' hne h => hkeep.sub t' hne h, Nat.le_refl _, fun _ => .inl, fun e he => ?_, fun c' h => ?_⟩
    ⟨hi.once.sent, answered_cons hi fun b hb => hlog.same hrec hb, hi.once.completed⟩
    (fun c' h => ?_) fun h _ => ?_
  · obtain ⟨h1, h2⟩ := keeps_of_kind hk hkeep hne h
    exact ⟨h1, h2, Function.update_of_ne (hi.apart t' t c' c h hc hne).2 ..⟩
  · rcases List.mem_cons.mp he with h | h
    · rw [h]
      exact .inr ⟨by rw [hc]; exact Option.some_ne_none _, rfl⟩
    · exact .inl h
  · rw [setThr_self] at h ⊢
    exact .inl ⟨h, rfl⟩
  · rw [setThr_self] at h ⊢
    have he : c = c' := Option.some.inj (hc.symm.trans h)
    cases he
    show CallOk c _ (opsOf T' t) (passOf T' t) (Function.update s.files c.file file c.file) ∧
      LogOk c (s.thr t).sid (opsOf T' t) _
    rw [Function.update_self]
    refine ⟨⟨hcall.alive, ?_, hprior, fun h => ?_, fun _ => hpass, fun _ => ?_, fun _ => rfl,
      fun _ i op' hlt h => ?_, fun _ _ => hfile⟩,
      hlog.record hrec (Nat.le_refl _) (fun i h => .inl h) fun i a h => ?_⟩
    · rw [hname]
      exact hsigs
    · exact absurd (hr.symm.trans h) (by decide)
    · dsimp only
      omega
    · dsimp only at hlt
      by_cases hi : i = (s.thr t).k
      · rw [hi, hrec.here] at h
        rw [hi, ← Option.some.inj h]
        exact ⟨hgood, hcont⟩
      · rw [hrec.rest i hi] at h
        exact hcall.before hr i op' (by omega) h
    · rcases List.mem_cons.mp h with h | h
      · obtain ⟨h1, h2⟩ := Prod.mk.inj (Prod.mk.inj h).2
        exact .inr ⟨h1, hgood.1, h2⟩
      · exact .inl h
  · rw [setThr_self] at h
    exact absurd (hc.symm.trans h) (Option.some_ne_none _)

theorem Inv.opStep (hi : Inv s) (hc : (s.thr t).call = some c) (hr : (s.thr t).running = true)
    {e : Env} (hk : Kind s (.op t e)) : Inv (opStep s t c e) := by
  obtain ⟨hcall, hlog⟩ := hi.calls t c hc
  have hpass := hcall.pass_eq hr
  have hdone := hcall.done_eq hr
  let file := s.files c.file
  let req := if c.write then writeReq file (c.chunk (s.thr t).done)
    else readReq file (c.chunk (s.thr t).done)
  have hreq : sigOf req.op req.flags req.len req.name = c.sig file.filename (s.thr t).k := by
    unfold Call.sig
    rw [← hdone]
    dsimp only [req]
    split_ifs <;> rfl
  have hcap : (if c.write then none else some (c.chunk (s.thr t).done)) = c.cap := by
    unfold Call.cap Call.chunk
    split_ifs <;> rfl
  have hcases := srvOp_cases s.table t file.pos req c.cap e (by
    rw [hpass]
    exact hcall.k_le hr) (fun op h => by
    rw [hpass] at h
    rw [hreq]
    exact (hcall.sig _ op h).1)
  rw [hpass] at hcases
  unfold Srvfs.opStep
  dsimp only
  rw [hcap]
  rcases hcases with ⟨T', a, hres, hbusy, hkeep, hlast⟩ |
    ⟨T', op, hrec, hkeep, ht, hsig, hfirst, hold, hres⟩
  · -- no room in a table: nothing is sent, and the call ends
    rw [show srvOp _ _ _ _ _ _ = _ from hres]
    dsimp only
    have hend := srvEnd_spec c { s.files c.file with pos := (s.files c.file).pos }
      (c.chunk (s.thr t).done) a
    generalize (if c.write then srvWriteEnd { s.files c.file with pos := (s.files c.file).pos }
      (c.chunk (s.thr t).done) a else srvReadEnd { s.files c.file with pos := (s.files c.file).pos }
      a) = r at hend ⊢
    obtain ⟨file', w⟩ := r
    obtain ⟨hpos, -, hgood⟩ := hend
    dsimp only at hpos hgood ⊢
    rw [if_neg]
    · refine hi.finish hc hk hkeep (fun b hb => ?_) ?_
      · obtain ⟨op₀, h0, -⟩ := hlog.answered _ b hb
        rw [hlast, List.getElem?_eq_none (Nat.le_refl _)] at h0
        cases h0
      · rw [hpos, hcall.pos_eq hr hlast, hdone, UInt32.add_assoc, UInt32.ofNat_add]
    · rintro ⟨hw, hne, -⟩
      have := (hgood hw hne).1
      rw [hbusy] at this
      exact absurd this (by decide)
  · have hpos : op.pos_before = (s.thr t).start + UInt32.ofNat ((s.thr t).k * PAGE_SIZE) := by
      by_cases hl : (s.thr t).k = (opsOf s.table t).length
      · exact (hfirst hl).trans (hcall.pos_eq hr hl)
      · have hlt : (s.thr t).k < (opsOf s.table t).length := by
          have := hcall.k_le hr
          omega
        rw [hold _ (List.getElem?_eq_getElem hlt)]
        exact (hcall.sig _ _ (List.getElem?_eq_getElem hlt)).2
    rcases hres with hres | ⟨hst, hpass', hres⟩
    · rw [show srvOp _ _ _ _ _ _ = _ from hres]
      exact hi.sleep hc hr hk hkeep hrec (hsig.trans hreq) hpos
    · rw [show srvOp _ _ _ _ _ _ = _ from hres]
      dsimp only
      have hend := srvEnd_spec c { s.files c.file with pos := op.pos_before }
        (c.chunk (s.thr t).done) (answerOf op c.cap)
      generalize (if c.write then srvWriteEnd { s.files c.file with pos := op.pos_before }
        (c.chunk (s.thr t).done) (answerOf op c.cap) else
        srvReadEnd { s.files c.file with pos := op.pos_before } (answerOf op c.cap)) = r at hend ⊢
      obtain ⟨file', w⟩ := r
      obtain ⟨hmove, hname, hgood⟩ := hend
      dsimp only at hmove hname hgood ⊢
      split_ifs with hmore
      · obtain ⟨hw, hne, hlt⟩ := hmore
        obtain ⟨hrc, hstat, hwlen⟩ := hgood hw hne
        rw [answerOf_rc] at hrc
        rw [answerOf_status _ hrc] at hstat
        have hchunk : c.chunk (s.thr t).done = min (c.length - (s.thr t).done) PAGE_SIZE := by
          unfold Call.chunk
          rw [if_pos hw]
        -- not the last page, so a whole one
        have hpage : w = PAGE_SIZE := by omega
        have hnext : (s.thr t).done + w = ((s.thr t).k + 1) * PAGE_SIZE := by
          rw [hdone, hpage, Nat.add_mul, Nat.one_mul]
        rw [hnext] at hlt ⊢
        refine hi.goOn hc hr hk hkeep hrec hpass' (hsig.trans hreq) hpos ⟨hst, hrc, hstat⟩ ⟨hw, hlt⟩
          hname ?_
        rw [hmove, hpos, hpage, UInt32.add_assoc, ofNat_page_succ]
      · refine hi.finish hc hk hkeep (fun b hb => hlog.same hrec hb) ?_
        rw [hmove, hpos, hdone, UInt32.add_assoc, UInt32.ofNat_add]

theorem Inv.step (hi : Inv s) {a : Act} (hk : Kind s a) : Inv (step s a) := by
  unfold Srvfs.step
  cases a with
  | enter t c =>
    dsimp only
    split_ifs with h
    · exact hi
    · rw [not_or, not_or] at h
      exact hi.enter (by simpa using h.2.1) (by simpa using h.1) hk
  | op t e =>
    dsimp only
    split
    · exact hi
    · split_ifs with hr
      · exact hi.opStep ‹_› hr hk
      · exact hi
  | restart t =>
    dsimp only
    split_ifs with h
    · obtain ⟨c, hc⟩ := Option.isSome_iff_exists.mp h.1
      exact hi.restart hc (by simpa using h.2)
    · exact hi
  | seek f pos =>
    have hfile : ∀ t c, (s.thr t).call = some c →
        (s.setFile f { s.files f with pos }).files c.file = s.files c.file :=
      fun t c h => Function.update_of_ne (hk t c h) ..
    refine ⟨⟨hi.once.sent, hi.once.answered, hi.once.completed⟩, hi.sent_lt, hi.answered_lt,
      fun t c h => ?_, hi.idle, hi.apart⟩
    obtain ⟨h1, h2⟩ := hi.calls t c h
    dsimp only
    rw [hfile t c h]
    exact ⟨h1, h2.sid_lt, h2.sent, h2.answered⟩
  | die t =>
    refine hi.local (t := t) ⟨fun t' h => setThr_ne _ _ h, fun _ _ _ _ => ⟨rfl, rfl, rfl⟩,
      fun _ _ h => h, Nat.le_refl _, fun _ => .inl, fun _ => .inl, fun c h => ?_⟩
      ⟨hi.once.sent, hi.once.answered, hi.once.completed⟩ (fun c h => ?_) fun _ hd => ?_
    · rw [setThr_self] at h
      cases h
    · rw [setThr_self] at h
      cases h
    · rw [setThr_self] at hd
      cases hd

theorem inv_init (files : ℕ → AuVFSNode) : Inv { files } where
  once := ⟨List.nodup_nil, fun _ _ _ _ h => absurd h List.not_mem_nil,
    fun _ h => absurd h List.not_mem_nil⟩
  sent_lt := fun _ h => absurd h List.not_mem_nil
  answered_lt := fun _ h => absurd h List.not_mem_nil
  calls := fun _ _ h => by cases h
  idle := fun _ _ _ => List.not_mem_nil
  apart := fun _ _ _ _ h => by cases h

/-- In every run of kind steps the operations are made once. -/
theorem exec_exactlyOnce (files : ℕ → AuVFSNode) (as : List Act)
    (hk : Respects Kind step { files } as) : ExactlyOnce (run step { files } as) :=
  (hk.invariant (fun _ _ hi hk => hi.step hk) (inv_init files)).once

/-- The server took the data. -/
def taken : Poll := .answer (some (⟨FSSRV_OK, 0, 0, 0⟩, []))

/-- A write of two pages, up to the second request. -/
def twoPages : List Act :=
  [.enter 1 ⟨true, 0, 5000⟩, .op 1 {}, .restart 1, .op 1 { poll := taken }, .op 1 {}]

theorem exec_exactlyOnce_twoPages : ExactlyOnce (run step { files := fun _ => {} } twoPages) :=
  exec_exactlyOnce (fun _ => {}) twoPages ⟨fun _ _ h => (by cases h), fun _ _ h => (by cases h),
    trivial, fun h => absurd (by decide +kernel) h, fun h => absurd (by decide +kernel) h, trivial⟩

/-- Operation `i` of a write is answered, and the next one is sent, after `i + 1` times 2.5 s. -/
def slowRound (i : ℕ) : List Act :=
  let now := UInt64.ofNat ((i + 1) * 2500000)
  .restart 1 :: List.replicate i (.op 1 {}) ++ [.op 1 { now, poll := taken }, .op 1 { now }]

/-- Six answers of a slow server, then another thread's first operation, after 16 s. -/
def slowWrite : List Act :=
  [.enter 1 ⟨true, 0, 32768⟩, .op 1 {}] ++ (List.range 6).flatMap slowRound ++
    [.enter 2 ⟨true, 1, 1⟩, .op 2 { now := 16000000 }, .restart 1, .op 1 { now := 17000000 }]

/-- The history is dropped under the write, whose first page is sent again. -/
theorem not_exec_exactlyOnce : ¬ ∀ files as, ExactlyOnce (run step { files } as) := by
  intro h
  exact absurd (h (fun _ => {}) slowWrite).sent (by decide +kernel)

end Xeneva.Srvfs
