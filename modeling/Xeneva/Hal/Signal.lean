import Xeneva.Base.Run

/-!
# Signals

A signal is delivered when its thread is scheduled: the exception frame is saved and edited
so that the thread goes on in the handler. The handler returns to a trampoline, whose system
call copies the saved frame back. The thread is in user mode whenever it is scheduled, so
there is one frame, at the top of its kernel stack.
-/

namespace Xeneva.Signal
open Base

def SIGTTOU : ℤ := 22

structure FpState where
  q : ℕ → ℕ
  fpcr : UInt64
  fpsr : UInt64

/-- An exception frame; `x` are `x0` to `x30`. -/
structure AA64Registers where
  elr : UInt64
  spsr : UInt64
  EL0SP : UInt64
  x : ℕ → UInt64

/-- What a user program sees of the processor. -/
structure Ctx where
  pc : UInt64
  pstate : UInt64
  sp : UInt64
  x : ℕ → UInt64
  fp : FpState

/-- `frame` is the exception frame at `sp`; a handler at address 0 is none. -/
structure AA64Thread where
  frame : AA64Registers
  elr_el1 : UInt64
  spsr_el1 : UInt64
  fp_regs : FpState
  sig_pending : ℕ → Bool
  sigs : ℕ → UInt64
  signal_regs : AA64Registers
  signal_elr_el1 : UInt64
  sigret_address : UInt64

def auAllocSignal (thr : AA64Thread) (signum : ℤ) : AA64Thread :=
  if signum ≤ 0 then thr
  else if signum > SIGTTOU then thr
  else { thr with sig_pending := Function.update thr.sig_pending signum.toNat true }

def setSignal (thr : AA64Thread) (signo : ℤ) (handler : UInt64) : AA64Thread :=
  if signo ≤ 0 ∨ signo ≥ 32 then thr
  else { thr with sigs := Function.update thr.sigs signo.toNat handler }

/-- Takes the lowest pending signal; 0 where there is none. -/
def auSignalDispatch (thr : AA64Thread) : AA64Thread × ℕ :=
  match (List.range 64).find? thr.sig_pending with
  | none => (thr, 0)
  | some signo => ({ thr with sig_pending := Function.update thr.sig_pending signo false }, signo)

def enterHandler (thr : AA64Thread) (signo : ℕ) : AA64Thread :=
  { thr with
    signal_regs := thr.frame
    signal_elr_el1 := thr.elr_el1
    elr_el1 := thr.sigs signo
    frame := { thr.frame with
      x := Function.update (Function.update thr.frame.x 0 (UInt64.ofNat signo)) 30
        thr.sigret_address } }

/-- A turn of the loop takes a signal; there are no more than 64. -/
def deliverLoop : ℕ → AA64Thread → AA64Thread × Option ℕ
  | 0, thr => (thr, none)
  | n + 1, thr =>
    let (thr, signo) := auSignalDispatch thr
    if signo = 0 then (thr, none)
    else if signo ≥ 32 ∨ thr.sigs signo = 0 then deliverLoop n thr
    else (enterHandler thr signo, some signo)

/-- Delivers one signal at most, the one returned. -/
def auSignalDeliver (thr : AA64Thread) : AA64Thread × Option ℕ := deliverLoop 65 thr

/-- The frame that an exception pushes. -/
def exceptionFrame (c : Ctx) (elr : UInt64) : AA64Registers where
  elr
  spsr := c.pstate
  EL0SP := c.sp
  x := c.x

/-- What `AuScheduleThread` keeps of the thread it leaves. -/
def saveThread (thr : AA64Thread) (frame : AA64Registers) (elr : UInt64) (fp : FpState) :
    AA64Thread :=
  { thr with frame, elr_el1 := elr, spsr_el1 := frame.spsr, fp_regs := fp }

/-- How it goes on with a thread, after the delivery. -/
def resumeThread (thr : AA64Thread) : Ctx where
  pc := thr.elr_el1
  pstate := thr.spsr_el1
  sp := thr.frame.EL0SP
  x := thr.frame.x
  fp := thr.fp_regs

def signalReturn (thr : AA64Thread) : AA64Thread :=
  { thr with frame := thr.signal_regs, elr_el1 := thr.signal_elr_el1 }

/-- The trampoline's system call. `retcode` is what `SignalReturn`, which returns nothing,
left in `x0`; the exit of every system call writes it to `x0` and `x6`. -/
def trampoline (thr : AA64Thread) (c : Ctx) (retcode : UInt64) : AA64Thread × Ctx :=
  let thr := { thr with frame := exceptionFrame c (c.pc + 4) }
  let thr := signalReturn thr
  let frame := { thr.frame with
    x := Function.update (Function.update thr.frame.x 0 retcode) 6 retcode }
  ({ thr with frame },
    { pc := frame.elr, pstate := frame.spsr, sp := frame.EL0SP, x := frame.x, fp := c.fp })

/-- `base` is where the program would be without signals, `active` counts the handlers that
have not returned, `owed` are the signals sent to a handler and not delivered yet, and
`quiet` says that the last scheduling found nothing to deliver. -/
structure Machine where
  thr : AA64Thread
  ctx : Ctx
  base : Ctx
  active : ℕ := 0
  owed : ℕ → Bool := fun _ => false
  quiet : Bool := false

inductive Act
  /-- The program runs, or a handler does, whatever it does to the processor. -/
  | program
  | handler (c : Ctx)
  | send (signum : ℤ)
  | setSignal (signo : ℤ) (handler : UInt64)
  /-- An interrupt, and the thread is scheduled again later. -/
  | schedule
  /-- A system call that sleeps and is to be made again. -/
  | restart
  | handlerReturn (retcode : UInt64)

/-- The thread is left with a frame and scheduled again. -/
def Machine.reschedule (s : Machine) (elr : UInt64) : Machine :=
  let (thr, signo) :=
    auSignalDeliver (saveThread s.thr (exceptionFrame s.ctx elr) s.ctx.pc s.ctx.fp)
  { s with
    thr
    ctx := resumeThread thr
    active := s.active + if signo.isSome then 1 else 0
    owed := fun n => s.owed n && s.thr.sigs n != 0 && signo != some n
    quiet := signo.isNone }

/-- `P` is the program, a step of it. -/
def step (P : Ctx → Ctx) (s : Machine) : Act → Machine
  | .program => if s.active = 0 then { s with ctx := P s.ctx, base := P s.base } else s
  | .handler c => if s.active = 0 then s else { s with ctx := c }
  | .send signum =>
    { s with
      thr := auAllocSignal s.thr signum
      owed := if 0 < signum ∧ signum ≤ SIGTTOU then Function.update s.owed signum.toNat true
        else s.owed
      quiet := false }
  | .setSignal signo h => { s with thr := Signal.setSignal s.thr signo h }
  | .schedule => s.reschedule s.ctx.pc
  | .restart => s.reschedule (s.ctx.pc + 4)
  | .handlerReturn retcode =>
    if s.active = 0 then s
    else
      let (thr, ctx) := trampoline s.thr s.ctx retcode
      { s with thr, ctx, active := s.active - 1 }

/-- Some pending signal has a handler. -/
def Delivers (thr : AA64Thread) : Prop :=
  ∃ n < 32, thr.sig_pending n = true ∧ thr.sigs n ≠ 0

/-- No signal is delivered to a handler or to a system call that is to be made again, the
interrupted `x0` and `x6` are what the return leaves there, and the handler leaves the
floating-point state as it was. -/
def Kind (s : Machine) : Act → Prop
  | .schedule => Delivers s.thr → s.active = 0
  | .restart => ¬ Delivers s.thr
  | .handlerReturn retcode => s.active ≠ 0 →
    s.base.x 0 = retcode ∧ s.base.x 6 = retcode ∧ s.ctx.fp = s.base.fp
  | _ => True

variable {thr : AA64Thread} {n : ℕ}

theorem auSignalDispatch_cases (thr : AA64Thread) (hp : ∀ n, thr.sig_pending n = true → n < 64) :
    (auSignalDispatch thr = (thr, 0) ∧ ∀ n, thr.sig_pending n = false) ∨
      ∃ signo, thr.sig_pending signo = true ∧ (∀ n, thr.sig_pending n = true → signo ≤ n) ∧
        auSignalDispatch thr =
          ({ thr with sig_pending := Function.update thr.sig_pending signo false }, signo) := by
  unfold auSignalDispatch
  cases hf : (List.range 64).find? thr.sig_pending with
  | none =>
    rw [List.find?_eq_none] at hf
    refine .inl ⟨rfl, fun n => ?_⟩
    rw [← Bool.not_eq_true]
    intro hn
    exact hf n (List.mem_range.mpr (hp n hn)) hn
  | some signo =>
    refine .inr ⟨signo, List.find?_some hf, fun n hn => ?_, rfl⟩
    by_contra hlt
    have hlow := (List.find?_range_eq_some.mp hf).2.2 n (by omega)
    rw [hn] at hlow
    cases hlow

/-- The loop takes the pending signals in order, up to the first that has a handler. -/
theorem deliverLoop_spec (k lo : ℕ) (thr : AA64Thread)
    (hp : ∀ n, thr.sig_pending n = true → lo ≤ n ∧ n < 32) (hlo : 0 < lo) (hk : 32 < k + lo) :
    ∃ p, (∀ n, p n = true → thr.sig_pending n = true) ∧
      ((deliverLoop k thr = ({ thr with sig_pending := p }, none) ∧ (∀ n, p n = false) ∧
          ∀ n, thr.sig_pending n = true → thr.sigs n = 0) ∨
        ∃ signo, deliverLoop k thr = (enterHandler { thr with sig_pending := p } signo, some signo) ∧
          thr.sig_pending signo = true ∧ thr.sigs signo ≠ 0 ∧
          ∀ n, thr.sig_pending n = true → thr.sigs n ≠ 0 → n ≠ signo → p n = true) := by
  induction k generalizing lo thr with
  | zero =>
    have hnone : ∀ n, thr.sig_pending n = false := by
      intro n
      rw [← Bool.not_eq_true]
      intro hn
      have := hp n hn
      omega
    refine ⟨thr.sig_pending, fun _ h => h, .inl ⟨rfl, hnone, fun n hn => ?_⟩⟩
    rw [hnone n] at hn
    cases hn
  | succ k ih =>
    unfold deliverLoop
    rcases auSignalDispatch_cases thr fun n hn => by have := hp n hn; omega with
      ⟨hd, hnone⟩ | ⟨signo, hpend, hlow, hd⟩
    · rw [hd]
      refine ⟨thr.sig_pending, fun _ h => h, .inl ⟨rfl, hnone, fun n hn => ?_⟩⟩
      rw [hnone n] at hn
      cases hn
    · obtain ⟨hge, hlt⟩ := hp signo hpend
      rw [hd]
      dsimp only
      rw [if_neg (by omega)]
      have hsub : ∀ n, Function.update thr.sig_pending signo false n = true →
          thr.sig_pending n = true ∧ n ≠ signo := by
        intro n hn
        by_cases he : n = signo
        · rw [he, Function.update_self] at hn
          cases hn
        · rw [Function.update_of_ne he] at hn
          exact ⟨hn, he⟩
      by_cases h0 : thr.sigs signo = 0
      · rw [if_pos (.inr h0)]
        obtain ⟨p, hpp, hcase⟩ := ih (lo + 1)
          { thr with sig_pending := Function.update thr.sig_pending signo false } (fun n hn => by
            obtain ⟨hn, hne⟩ := hsub n hn
            have := hlow n hn
            have := hp n hn
            omega) (by omega) (by omega)
        refine ⟨p, fun n hn => (hsub n (hpp n hn)).1, ?_⟩
        have hrest : ∀ n, thr.sig_pending n = true → thr.sigs n ≠ 0 →
            Function.update thr.sig_pending signo false n = true := by
          intro n hn hs
          have hne : n ≠ signo := fun he => hs (he ▸ h0)
          rwa [Function.update_of_ne hne]
        rcases hcase with ⟨hl, hnone, hs⟩ | ⟨sig, hl, hps, hs, hkeep⟩
        · refine .inl ⟨hl, hnone, fun n hn => ?_⟩
          by_contra hc
          exact hc (hs n (hrest n hn hc))
        · exact .inr ⟨sig, hl, (hsub sig hps).1, hs,
            fun n hn hsn hne => hkeep n (hrest n hn hsn) hsn hne⟩
      · rw [if_neg (by
          rintro (h | h)
          · omega
          · exact h0 h)]
        refine ⟨_, fun n hn => (hsub n hn).1, .inr ⟨signo, rfl, hpend, h0, fun n hn _ hne => ?_⟩⟩
        rwa [Function.update_of_ne hne]

/-! ## The invariant -/

/-- A handler that runs was entered from where the program is, and only the signals that can
be sent are ever pending. -/
structure Inv (s : Machine) : Prop where
  pending_lt : ∀ n, s.thr.sig_pending n = true → 0 < n ∧ n < 32
  active_le : s.active ≤ 1
  resumed : s.active = 0 → s.ctx = s.base
  saved : s.active = 1 → s.thr.signal_regs = exceptionFrame s.base s.base.pc
  owed : ∀ n, s.owed n = true → s.thr.sig_pending n = true
  quiet : s.quiet = true → ∀ n, s.owed n = false

variable {s : Machine}

theorem auAllocSignal_eq (thr : AA64Thread) (signum : ℤ) :
    auAllocSignal thr signum = { thr with
      sig_pending := if 0 < signum ∧ signum ≤ SIGTTOU then
        Function.update thr.sig_pending signum.toNat true else thr.sig_pending } := by
  unfold auAllocSignal
  by_cases h1 : signum ≤ 0
  · rw [if_pos h1, if_neg (by omega)]
  · by_cases h2 : signum > SIGTTOU
    · rw [if_neg h1, if_pos h2, if_neg (by omega)]
    · rw [if_neg h1, if_neg h2, if_pos (by omega)]

/-- A scheduling that delivers nothing to a handler comes back to where the thread was, and
one that delivers saves that place. -/
theorem Inv.reschedule (hi : Inv s) {elr : UInt64} (hd : Delivers s.thr → s.active = 0)
    (he : Delivers s.thr → elr = s.ctx.pc) : Inv (s.reschedule elr) := by
  obtain ⟨p, hsub, hcase⟩ := deliverLoop_spec 65 1
    (saveThread s.thr (exceptionFrame s.ctx elr) s.ctx.pc s.ctx.fp) hi.pending_lt
    (by omega) (by omega)
  unfold Machine.reschedule auSignalDeliver
  rcases hcase with ⟨hl, hnone, hs⟩ | ⟨signo, hl, hpend, hs, hkeep⟩
  · rw [hl]
    have howed : ∀ n, (s.owed n && s.thr.sigs n != 0 && none != some n) = false := by
      intro n
      cases ho : s.owed n with
      | false => rfl
      | true =>
        have h0 : s.thr.sigs n = 0 := hs n (hi.owed n ho)
        rw [h0]
        rfl
    refine ⟨fun n hn => ?_, hi.active_le, hi.resumed, hi.saved, fun n hn => ?_, fun _ => howed⟩
    · have hn : p n = true := hn
      rw [hnone n] at hn
      cases hn
    · have hn : (s.owed n && s.thr.sigs n != 0 && none != some n) = true := hn
      rw [howed n] at hn
      cases hn
  · have hdel : Delivers s.thr := ⟨signo, (hi.pending_lt signo hpend).2, hpend, hs⟩
    have h0 := hd hdel
    rw [hl, he hdel]
    refine ⟨fun n hn => hi.pending_lt n (hsub n hn), ?_, fun h => ?_, fun _ => ?_,
      fun n hn => ?_, fun h => ?_⟩
    · dsimp only
      rw [h0]
      exact Nat.le_refl _
    · dsimp only at h
      rw [h0] at h
      cases h
    · rw [← hi.resumed h0]
      rfl
    · dsimp only at hn
      rw [Bool.and_eq_true, Bool.and_eq_true, bne_iff_ne, bne_iff_ne] at hn
      obtain ⟨⟨ho, hsn⟩, hne⟩ := hn
      exact hkeep n (hi.owed n ho) hsn fun h => hne (by rw [h])
    · cases h

theorem Inv.step {P : Ctx → Ctx} (hi : Inv s) {a : Act} (hk : Kind s a) :
    Inv (Signal.step P s a) := by
  cases a with
  | program =>
    unfold Signal.step
    dsimp only
    split_ifs with h0
    · refine { hi with resumed := fun _ => ?_, saved := fun h => ?_ }
      · rw [hi.resumed h0]
      · exact absurd (h0.symm.trans h) (by omega)
    · exact hi
  | handler c =>
    unfold Signal.step
    dsimp only
    split_ifs with h0
    · exact hi
    · exact { hi with resumed := fun h => absurd h h0 }
  | send signum =>
    unfold Signal.step
    dsimp only
    rw [auAllocSignal_eq]
    refine { hi with pending_lt := fun n hn => ?_, owed := fun n hn => ?_, quiet := fun h => ?_ }
    · dsimp only at hn
      split_ifs at hn with hr
      · by_cases hne : n = signum.toNat
        · have : signum ≤ 22 := hr.2
          omega
        · rw [Function.update_of_ne hne] at hn
          exact hi.pending_lt n hn
      · exact hi.pending_lt n hn
    · dsimp only at hn ⊢
      split_ifs at hn ⊢ with hr
      · by_cases hne : n = signum.toNat
        · rw [hne, Function.update_self]
        · rw [Function.update_of_ne hne] at hn ⊢
          exact hi.owed n hn
      · exact hi.owed n hn
    · cases h
  | setSignal signo h =>
    unfold Signal.step Signal.setSignal
    dsimp only
    split_ifs
    · exact hi
    · exact ⟨hi.pending_lt, hi.active_le, hi.resumed, hi.saved, hi.owed, hi.quiet⟩
  | schedule => exact hi.reschedule hk fun _ => rfl
  | restart => exact hi.reschedule (fun h => absurd h hk) fun h => absurd h hk
  | handlerReturn retcode =>
    unfold Signal.step
    dsimp only
    split_ifs with h0
    · exact hi
    · have h1 : s.active = 1 := by
        have := hi.active_le
        omega
      obtain ⟨hx0, hx6, hfp⟩ := hk h0
      have hsaved := hi.saved h1
      refine ⟨hi.pending_lt, ?_, fun _ => ?_, fun h => ?_, hi.owed, hi.quiet⟩
      · dsimp only
        omega
      · -- the registers that the exit writes are the interrupted ones
        have hx : Function.update (Function.update s.base.x 0 retcode) 6 retcode = s.base.x := by
          rw [← hx0, Function.update_eq_self, hx0, ← hx6, Function.update_eq_self]
        simp only [trampoline, signalReturn, hsaved, exceptionFrame, hx, hfp]
      · dsimp only at h
        omega

/-- The machine before anything is sent. -/
def start (thr : AA64Thread) (c : Ctx) : Machine where
  thr := { thr with sig_pending := fun _ => false }
  ctx := c
  base := c

end Xeneva.Signal
