import Xeneva.Fs.Pipe

/-!
# Runs of a pipe

The bytes keep their order in every run. A write whose outer loop finds free bytes, but not more
than it was asked to write in all, copies none of them; that test aside every turn makes progress.
-/

namespace Xeneva.Fs.Pipe
open Base

variable {s : PipeState} {pipe : AuPipe} {t u : ℕ}

@[simp] theorem setCall_calls_self (s : PipeState) (t : ℕ) (c : Option Call) :
    (s.setCall t c).calls t = c := if_pos rfl

theorem own_append (t : ℕ) (l k : List (ℕ × UInt8)) : own t (l ++ k) = own t l ++ own t k := by
  simp [own]

theorem own_single_self (t : ℕ) (b : UInt8) : own t [(t, b)] = [b] := by
  simp [own]

theorem writing_of_calls {s s' : PipeState} (h : s'.calls u = s.calls u) :
    s'.writing u = s.writing u := by
  simp only [PipeState.writing, h]

theorem reading_of_calls {s s' : PipeState} (h : s'.calls u = s.calls u) :
    s'.reading u = s.reading u := by
  simp only [PipeState.reading, h]

theorem writing_of_write {call : WriteCall} (h : s.calls t = some (.write call)) :
    s.writing t = call.buffer.take call.written := by
  simp only [PipeState.writing, h]

theorem reading_of_write {call : WriteCall} (h : s.calls t = some (.write call)) :
    s.reading t = [] := by
  simp only [PipeState.reading, h]

theorem writing_of_read {call : ReadCall} (h : s.calls t = some (.read call)) :
    s.writing t = [] := by
  simp only [PipeState.writing, h]

theorem reading_of_read {call : ReadCall} (h : s.calls t = some (.read call)) :
    s.reading t = call.collected := by
  simp only [PipeState.reading, h]

theorem writing_of_none (h : s.calls t = none) : s.writing t = [] := by
  simp only [PipeState.writing, h]

theorem reading_of_none (h : s.calls t = none) : s.reading t = [] := by
  simp only [PipeState.reading, h]

/-! ## Order -/

structure PipeInv (s : PipeState) : Prop where
  wf : WF s.pipe
  fifo : Fifo s

/-- What a step of `t` leaves alone. -/
structure Others (t : ℕ) (s s' : PipeState) : Prop where
  calls : ∀ u ≠ t, s'.calls u = s.calls u
  sent : ∀ u ≠ t, own u s'.sent = own u s.sent
  got : ∀ u ≠ t, own u s'.got = own u s.got
  wrote : ∀ u ≠ t, s'.wrote u = s.wrote u
  returned : ∀ u ≠ t, s'.returned u = s.returned u

theorem others_setCall (s : PipeState) (t : ℕ) (c : Option Call) : Others t s (s.setCall t c) :=
  ⟨fun _ hu => if_neg hu, fun _ _ => rfl, fun _ _ => rfl, fun _ _ => rfl, fun _ _ => rfl⟩

theorem own_snoc_of_ne (l : List (ℕ × UInt8)) (b : UInt8) (h : u ≠ t) :
    own u (l ++ [(t, b)]) = own u l := by
  simp [own, Ne.symm h]

theorem others_writeTurn (s : PipeState) (t : ℕ) (call : WriteCall) :
    Others t s (writeTurn s t call) := by
  rcases writeTurn_cases s t call with ⟨b, -, -, -, he⟩ | ⟨-, -, he⟩ | ⟨-, -, he⟩ <;> rw [he]
  · exact ⟨fun _ hu => if_neg hu, fun _ hu => own_snoc_of_ne _ b hu, fun _ _ => rfl,
      fun _ _ => rfl, fun _ _ => rfl⟩
  · exact others_setCall s t _
  · exact ⟨fun _ hu => if_neg hu, fun _ _ => rfl, fun _ _ => rfl, fun _ hu => if_neg hu,
      fun _ _ => rfl⟩

theorem others_readTurn (s : PipeState) (t : ℕ) (call : ReadCall) :
    Others t s (readTurn s t call) := by
  rcases readTurn_cases s t call with ⟨-, he⟩ | he | he <;> rw [he]
  · exact ⟨fun _ hu => if_neg hu, fun _ _ => rfl, fun _ hu => own_snoc_of_ne _ _ hu,
      fun _ _ => rfl, fun _ _ => rfl⟩
  · exact others_setCall s t _
  · exact ⟨fun _ hu => if_neg hu, fun _ _ => rfl, fun _ _ => rfl, fun _ _ => rfl,
      fun _ hu => if_neg hu⟩

theorem Others.refl (t : ℕ) (s : PipeState) : Others t s s :=
  ⟨fun _ _ => rfl, fun _ _ => rfl, fun _ _ => rfl, fun _ _ => rfl, fun _ _ => rfl⟩

/-- The thread whose step it is. -/
def PipeOp.thread : PipeOp → ℕ
  | .write t _ => t
  | .read t _ => t
  | .turn t => t

theorem others_step (s : PipeState) (op : PipeOp) : Others op.thread s (step s op) := by
  cases op with
  | write t buffer =>
    simp only [step, PipeOp.thread]
    split_ifs
    · exact Others.refl t s
    · exact others_setCall s t _
  | read t length =>
    simp only [step, PipeOp.thread]
    split_ifs
    · exact Others.refl t s
    · exact others_setCall s t _
  | turn t =>
    simp only [step, PipeOp.thread]
    split
    · exact others_writeTurn s t _
    · exact others_readTurn s t _
    · exact Others.refl t s

theorem Fifo.of_others {s' : PipeState} (h : Fifo s) (ho : Others t s s')
    (horder : s'.got.map Prod.snd ++ contents s'.pipe = s'.sent.map Prod.snd)
    (hsent : own t s'.sent = s'.wrote t ++ s'.writing t)
    (hgot : own t s'.got = s'.returned t ++ s'.reading t) : Fifo s' where
  order := horder
  sent u := by
    by_cases hu : u = t
    · rw [hu]
      exact hsent
    · rw [ho.sent u hu, ho.wrote u hu, writing_of_calls (ho.calls u hu)]
      exact h.sent u
  got u := by
    by_cases hu : u = t
    · rw [hu]
      exact hgot
    · rw [ho.got u hu, ho.returned u hu, reading_of_calls (ho.calls u hu)]
      exact h.got u

/-- Replacing a call by one that has come as far. -/
theorem PipeInv.setCall (h : PipeInv s) {c : Option Call}
    (hw : (s.setCall t c).writing t = s.writing t)
    (hr : (s.setCall t c).reading t = s.reading t) : PipeInv (s.setCall t c) := by
  refine ⟨h.wf, h.fifo.of_others (others_setCall s t c) h.fifo.order ?_ ?_⟩
  · rw [hw]
    exact h.fifo.sent t
  · rw [hr]
    exact h.fifo.got t

theorem PipeInv.writeTurn (h : PipeInv s) {call : WriteCall}
    (hc : s.calls t = some (.write call)) : PipeInv (writeTurn s t call) := by
  have hsent := h.fifo.sent t
  have hgot := h.fifo.got t
  rw [writing_of_write hc] at hsent
  rw [reading_of_write hc] at hgot
  rcases writeTurn_cases s t call with ⟨b, hb, havail, -, he⟩ | ⟨-, -, he⟩ | ⟨-, hle, he⟩
  · have hwrite := h.wf.write_byte havail b
    have htake : call.buffer.take (call.written + 1) = call.buffer.take call.written ++ [b] := by
      rw [List.take_add_one, hb]
      rfl
    have hcall : (Pipe.writeTurn s t call).calls t =
        some (.write { call with written := call.written + 1, copying := true }) := by
      rw [he]
      exact if_pos rfl
    have hw := writing_of_write hcall
    have hr := reading_of_write hcall
    rw [he] at hw hr ⊢
    refine ⟨hwrite.1, h.fifo.of_others (he ▸ others_writeTurn s t call) ?_ ?_ ?_⟩
    · rw [hwrite.2, List.map_append, ← h.fifo.order, List.append_assoc]
      rfl
    · rw [hw, htake, ← List.append_assoc]
      show own t (s.sent ++ _) = s.wrote t ++ _ ++ _
      rw [own_append, hsent, own_single_self]
    · rw [hr]
      exact hgot
  · rw [he]
    apply h.setCall
    · rw [writing_of_write hc, writing_of_write (setCall_calls_self ..)]
    · rw [reading_of_write hc, reading_of_write (setCall_calls_self ..)]
  · have hcall : (Pipe.writeTurn s t call).calls t = none := by
      rw [he]
      exact if_pos rfl
    have hw := writing_of_none hcall
    have hr := reading_of_none hcall
    rw [he] at hw hr ⊢
    refine ⟨h.wf, h.fifo.of_others (he ▸ others_writeTurn s t call) h.fifo.order ?_ ?_⟩
    · rw [hw, List.append_nil]
      rw [List.take_of_length_le hle] at hsent
      simpa [PipeState.setCall] using hsent
    · rw [hr]
      exact hgot

theorem PipeInv.readTurn (h : PipeInv s) {call : ReadCall}
    (hc : s.calls t = some (.read call)) : PipeInv (readTurn s t call) := by
  have hsent := h.fifo.sent t
  have hgot := h.fifo.got t
  rw [writing_of_read hc] at hsent
  rw [reading_of_read hc] at hgot
  rcases readTurn_cases s t call with ⟨hunread, he⟩ | he | he
  · have hread := h.wf.read_byte hunread
    have hcall : (Pipe.readTurn s t call).calls t = some (.read { call with
        collected := call.collected ++ [s.pipe.buffer s.pipe.read_ptr], copying := true }) := by
      rw [he]
      exact if_pos rfl
    have hw := writing_of_read hcall
    have hr := reading_of_read hcall
    rw [he] at hw hr ⊢
    refine ⟨hread.1, h.fifo.of_others (he ▸ others_readTurn s t call) ?_ ?_ ?_⟩
    · have horder := h.fifo.order
      rw [hread.2] at horder
      show (s.got ++ [_]).map Prod.snd ++ _ = s.sent.map Prod.snd
      rw [List.map_append, ← horder, List.append_assoc]
      rfl
    · rw [hw]
      exact hsent
    · rw [hr, ← List.append_assoc]
      show own t (s.got ++ _) = s.returned t ++ _ ++ _
      rw [own_append, hgot, own_single_self]
  · rw [he]
    apply h.setCall
    · rw [writing_of_read hc, writing_of_read (setCall_calls_self ..)]
    · rw [reading_of_read hc, reading_of_read (setCall_calls_self ..)]
  · have hcall : (Pipe.readTurn s t call).calls t = none := by
      rw [he]
      exact if_pos rfl
    have hw := writing_of_none hcall
    have hr := reading_of_none hcall
    rw [he] at hw hr ⊢
    refine ⟨h.wf, h.fifo.of_others (he ▸ others_readTurn s t call) h.fifo.order ?_ ?_⟩
    · rw [hw]
      exact hsent
    · rw [hr, List.append_nil]
      simpa [PipeState.setCall] using hgot

/-- A thread that is in no call starts one. -/
theorem PipeInv.start (h : PipeInv s) (hnone : (s.calls t).isSome = false) {c : Option Call}
    (hw : (s.setCall t c).writing t = []) (hr : (s.setCall t c).reading t = []) :
    PipeInv (s.setCall t c) := by
  have hn : s.calls t = none := Option.isSome_eq_false_iff.mp hnone |> Option.isNone_iff_eq_none.mp
  apply h.setCall
  · rw [hw, writing_of_none hn]
  · rw [hr, reading_of_none hn]

theorem PipeInv.step (h : PipeInv s) (op : PipeOp) : PipeInv (step s op) := by
  cases op with
  | write t buffer =>
    simp only [Pipe.step]
    split_ifs with hbusy
    · exact h
    · apply h.start (Bool.not_eq_true _ ▸ hbusy)
      · rw [writing_of_write (setCall_calls_self ..), List.take_zero]
      · rw [reading_of_write (setCall_calls_self ..)]
  | read t length =>
    simp only [Pipe.step]
    split_ifs with hbusy
    · exact h
    · apply h.start (Bool.not_eq_true _ ▸ hbusy)
      · rw [writing_of_read (setCall_calls_self ..)]
      · rw [reading_of_read (setCall_calls_self ..)]
  | turn t =>
    cases hc : s.calls t with
    | none =>
      simp only [Pipe.step, hc]
      exact h
    | some c =>
      cases c with
      | write call =>
        simp only [Pipe.step, hc]
        exact h.writeTurn hc
      | read call =>
        simp only [Pipe.step, hc]
        exact h.readTurn hc

theorem pipeInv_boot (h : auCreatePipe pipe.buffer pipe.size = some pipe) :
    PipeInv (boot pipe) := by
  unfold auCreatePipe at h
  split_ifs at h with hz
  have hp := Option.some.inj h
  have hread : pipe.read_ptr = 0 := by rw [← hp]
  have hwrite : pipe.write_ptr = 0 := by rw [← hp]
  have hempty : contents pipe = [] := by
    unfold contents auPipeUnread
    rw [hread, hwrite, if_pos rfl, window_zero]
  refine ⟨⟨by rw [show (boot pipe).pipe = pipe from rfl]; omega,
    by rw [show (boot pipe).pipe = pipe from rfl]; omega⟩, ?_, fun u => rfl, fun u => rfl⟩
  exact hempty

/-! ## Progress -/

/-- A turn of a write that has bytes left and finds a free one copies a byte. -/
def MakesProgress (s : PipeState) : PipeOp → Prop
  | .turn t => ∀ call, s.calls t = some (.write call) → call.written < call.buffer.length →
      0 < auPipeGetAvailableBytes s.pipe →
      ∃ call', (step s (.turn t)).calls t = some (.write call') ∧ call'.buffer = call.buffer ∧
        call'.written = call.written + 1
  | _ => True

/-- The outer loop of no write with bytes left finds a free byte, but not more of them than the
write is long. -/
def TestPasses (s : PipeState) : PipeOp → Prop
  | .turn t => ∀ call, s.calls t = some (.write call) → call.written < call.buffer.length →
      0 < auPipeGetAvailableBytes s.pipe → call.copying = false →
      call.buffer.length < auPipeGetAvailableBytes s.pipe
  | _ => True

theorem step_turn_write {call : WriteCall} (hc : s.calls t = some (.write call)) :
    step s (.turn t) = writeTurn s t call := by
  simp only [step, hc]

theorem makesProgress_iff (s : PipeState) (op : PipeOp) :
    MakesProgress s op ↔ TestPasses s op := by
  cases op with
  | write t buffer => rfl
  | read t length => rfl
  | turn t =>
    constructor
    · intro h call hc hlt havail hcopy
      by_contra hle
      obtain ⟨call', hc', -, hw⟩ := h call hc hlt havail
      rw [step_turn_write hc] at hc'
      rcases writeTurn_cases s t call with ⟨b, -, -, hin, -⟩ | ⟨-, -, he⟩ | ⟨-, hge, -⟩
      · rcases hin with hin | hin
        · rw [hcopy] at hin
          exact Bool.false_ne_true hin
        · exact hle hin
      · rw [he, setCall_calls_self] at hc'
        have heq := Call.write.inj (Option.some.inj hc')
        rw [← heq] at hw
        exact absurd hw (Nat.ne_of_lt (Nat.lt_succ_self call.written))
      · omega
    · intro h call hc hlt havail
      rw [step_turn_write hc]
      rcases writeTurn_cases s t call with ⟨b, -, -, -, he⟩ | ⟨hstuck, -, -⟩ | ⟨-, hge, -⟩
      · rw [he]
        exact ⟨_, if_pos rfl, rfl, rfl⟩
      · have hs := hstuck havail hlt
        have hpass := h call hc hlt havail hs.1
        omega
      · omega

/-- What a call has left to do. -/
def WriteCall.left (call : WriteCall) : ℕ :=
  2 * (call.buffer.length - call.written) + if call.copying then 1 else 0

/-- What a step does to the write of `t`: it goes on, with no more left to do and with less after
a turn of `t` that found a free byte, or it returns. -/
theorem write_step {call : WriteCall} (hc : s.calls t = some (.write call)) (op : PipeOp)
    (hok : TestPasses s op) :
    (∃ call', (step s op).calls t = some (.write call') ∧ call'.buffer = call.buffer ∧
      (step s op).wrote t = s.wrote t ∧ call'.left ≤ call.left ∧
      (op = .turn t → 0 < auPipeGetAvailableBytes s.pipe → call'.left < call.left)) ∨
    ((step s op).calls t = none ∧ (step s op).wrote t = s.wrote t ++ call.buffer) := by
  by_cases hop : op.thread = t
  · cases op with
    | write t' buffer =>
      have heq : t' = t := hop
      subst heq
      left
      have hs : step s (.write t' buffer) = s := by
        simp only [step]
        rw [if_pos (by rw [hc]; rfl)]
      rw [hs]
      exact ⟨call, hc, rfl, rfl, Nat.le_refl _, nofun⟩
    | read t' length =>
      have heq : t' = t := hop
      subst heq
      left
      have hs : step s (.read t' length) = s := by
        simp only [step]
        rw [if_pos (by rw [hc]; rfl)]
      rw [hs]
      exact ⟨call, hc, rfl, rfl, Nat.le_refl _, nofun⟩
    | turn t' =>
      have heq : t' = t := hop
      subst heq
      rw [step_turn_write hc]
      rcases writeTurn_cases s t' call with ⟨b, hb, -, -, he⟩ | ⟨hstuck, hin, he⟩ | ⟨-, -, he⟩
      · left
        have hlt := (List.getElem?_eq_some_iff.mp hb).1
        have hleft : WriteCall.left { call with written := call.written + 1, copying := true } <
            call.left := by
          simp only [WriteCall.left, if_true]
          split_ifs <;> omega
        rw [he]
        exact ⟨_, if_pos rfl, rfl, rfl, Nat.le_of_lt hleft, fun _ _ => hleft⟩
      · left
        have hleft : WriteCall.left { call with copying := false } ≤ call.left := by
          simp only [WriteCall.left, Bool.false_eq_true, if_false]
          omega
        rw [he]
        refine ⟨_, if_pos rfl, rfl, rfl, hleft, fun _ havail => ?_⟩
        by_cases hlt : call.written < call.buffer.length
        · have hs := hstuck havail hlt
          have hpass := hok call hc hlt havail hs.1
          omega
        · have hcopy := hin.resolve_right hlt
          simp [WriteCall.left, hcopy]
      · right
        rw [he]
        exact ⟨if_pos rfl, if_pos rfl⟩
  · left
    have ho := others_step s op
    refine ⟨call, (ho.calls t (Ne.symm hop)).trans hc, rfl, ho.wrote t (Ne.symm hop), Nat.le_refl _, ?_⟩
    intro hturn
    exact absurd (congrArg PipeOp.thread hturn) hop

/-! ## Whole runs -/

/-- The state after the first `n` steps of a schedule. -/
def after (pipe : AuPipe) (sched : ℕ → PipeOp) (n : ℕ) : PipeState :=
  run step (boot pipe) ((List.range n).map sched)

theorem after_succ (pipe : AuPipe) (sched : ℕ → PipeOp) (n : ℕ) :
    after pipe sched (n + 1) = step (after pipe sched n) (sched n) := by
  unfold after
  rw [List.range_succ, List.map_append, run_append]
  rfl

/-- Readers keep draining the pipe for `t`: its turns find free bytes again and again. -/
def KeepDraining (pipe : AuPipe) (sched : ℕ → PipeOp) (t : ℕ) : Prop :=
  ∀ n, ∃ m ≥ n, sched m = .turn t ∧ 0 < auPipeGetAvailableBytes (after pipe sched m).pipe

/-- Each write of `t` returns and has written all it was given. -/
def WritesComplete (pipe : AuPipe) (sched : ℕ → PipeOp) (t : ℕ) : Prop :=
  ∀ n call, (after pipe sched n).calls t = some (.write call) →
    ∃ m > n, (after pipe sched m).calls t = none ∧
      (after pipe sched m).wrote t = (after pipe sched n).wrote t ++ call.buffer

/-- Up to a later turn of `t` that finds a free byte its write has returned or has less left. -/
theorem write_advances {sched : ℕ → PipeOp}
    (hok : ∀ n, TestPasses (after pipe sched n) (sched n)) {m : ℕ} (hm : sched m = .turn t)
    (havail : 0 < auPipeGetAvailableBytes (after pipe sched m).pipe) (d : ℕ) :
    ∀ n call, n + d = m → (after pipe sched n).calls t = some (.write call) →
      (∃ call', (after pipe sched (m + 1)).calls t = some (.write call') ∧
        call'.buffer = call.buffer ∧
        (after pipe sched (m + 1)).wrote t = (after pipe sched n).wrote t ∧
        call'.left < call.left) ∨
      ∃ k > n, (after pipe sched k).calls t = none ∧
        (after pipe sched k).wrote t = (after pipe sched n).wrote t ++ call.buffer := by
  induction d with
  | zero =>
    intro n call hn hc
    have hnm : n = m := hn
    subst hnm
    rw [after_succ]
    rcases write_step hc (sched n) (hok n) with ⟨call', hc', hb, hw, -, hlt⟩ | ⟨hc', hw⟩
    · exact Or.inl ⟨call', hc', hb, hw, hlt hm havail⟩
    · right
      refine ⟨n + 1, Nat.lt_succ_self n, ?_⟩
      rw [after_succ]
      exact ⟨hc', hw⟩
  | succ d ih =>
    intro n call hn hc
    rcases write_step hc (sched n) (hok n) with ⟨call', hc', hb, hw, hle, -⟩ | ⟨hc', hw⟩
    · rw [← after_succ] at hc' hw
      rw [← hw, ← hb]
      rcases ih (n + 1) call' (by omega) hc' with ⟨call'', hc'', hb', hw', hlt⟩ | ⟨k, hk, hn'⟩
      · exact Or.inl ⟨call'', hc'', hb', hw', Nat.lt_of_lt_of_le hlt hle⟩
      · exact Or.inr ⟨k, Nat.lt_of_succ_lt hk, hn'⟩
    · right
      refine ⟨n + 1, Nat.lt_succ_self n, ?_⟩
      rw [after_succ]
      exact ⟨hc', hw⟩

theorem writesComplete {sched : ℕ → PipeOp}
    (hok : ∀ n, TestPasses (after pipe sched n) (sched n)) (hdrain : KeepDraining pipe sched t) :
    WritesComplete pipe sched t := by
  intro n call
  -- on what the call has left
  induction hl : call.left using Nat.strongRecOn generalizing n call with
  | ind l ih =>
    intro hc
    obtain ⟨m, hm, hturn, havail⟩ := hdrain n
    have hadv := write_advances hok hturn havail (m - n) n call (by omega) hc
    rcases hadv with ⟨call', hc', hb, hw, hlt⟩ | hdone
    · obtain ⟨k, hk, hnone, hwrote⟩ := ih call'.left (hl ▸ hlt) (m + 1) call' rfl hc'
      refine ⟨k, by omega, hnone, ?_⟩
      rw [hwrote, hw, hb]
    · exact hdone

/-- The bytes keep their order in every run. The writes make progress in just the runs in which
no outer loop of a write with bytes left finds a free byte, but not more of them than the write is
long; there each write completes while readers keep draining. -/
theorem exec_pipe (hp : auCreatePipe pipe.buffer pipe.size = some pipe) :
    (∀ ops, Fifo (run step (boot pipe) ops)) ∧
    (∀ ops, Respects MakesProgress step (boot pipe) ops ↔
      Respects TestPasses step (boot pipe) ops) ∧
    ∀ sched, (∀ n, TestPasses (after pipe sched n) (sched n)) →
      ∀ t, KeepDraining pipe sched t → WritesComplete pipe sched t := by
  refine ⟨fun ops => ?_, fun ops => ⟨?_, ?_⟩, fun sched hok t => writesComplete hok⟩
  · have hinv := run_invariant (I := PipeInv) (fun _ op hi => hi.step op) ops (pipeInv_boot hp)
    exact hinv.fifo
  · exact Respects.mono fun s op => (makesProgress_iff s op).mp
  · exact Respects.mono fun s op => (makesProgress_iff s op).mpr

theorem exec_pipe_eight : Respects MakesProgress step (boot ⟨fun _ => 0, 8, 0, 0⟩)
    [.write 0 [1, 2, 3], .turn 0] := by
  apply ((@exec_pipe ⟨fun _ => 0, 8, 0, 0⟩ rfl).2.1 _).mpr
  refine ⟨trivial, fun call hc _ _ _ => ?_, trivial⟩
  rw [← Call.write.inj (Option.some.inj hc)]
  decide

/-- Three bytes for a pipe of four: all are free, and none is ever copied. -/
theorem not_exec_pipe : ¬ ∀ pipe : AuPipe, auCreatePipe pipe.buffer pipe.size = some pipe →
    (∀ ops, Respects MakesProgress step (boot pipe) ops) ∧
    ∀ sched t, KeepDraining pipe sched t → WritesComplete pipe sched t := by
  intro h
  have hr := (h ⟨fun _ => 0, 4, 0, 0⟩ rfl).1 [.write 0 [1, 2, 3], .turn 0]
  obtain ⟨call', hc', -, hw⟩ := hr.2.1 ⟨[1, 2, 3], 0, false⟩ rfl (by decide) (by decide)
  have heq : WriteCall.mk [1, 2, 3] 0 false = call' := Call.write.inj (Option.some.inj hc')
  rw [← heq] at hw
  exact absurd hw (by decide)

end Xeneva.Fs.Pipe
