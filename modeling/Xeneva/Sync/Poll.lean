import Xeneva.Hal.Wake

/-!
# Polling

`AuPoll` checks its descriptors, and where none is ready it sets `blocked_on_poll`, blocks
or sleeps, and gives the processor away. An interrupt may come between any two of these
steps; it makes a device ready and wakes the threads in its wait queue.
-/

namespace Xeneva.Poll
open Base Sched

def pollIn : UInt16 := 0x001
def pollOut : UInt16 := 0x004
def pollErr : UInt16 := 0x008
def pollHup : UInt16 := 0x010
def pollNval : UInt16 := 0x020

def pollMaxFdMonitor : ℕ := 1024

structure PollFd where
  fd : Int
  events : UInt16
  deriving DecidableEq, Repr

/-- An open file, with a poll callback if it is a device. -/
inductive File
  | regular
  | device (d : ℕ)
  deriving DecidableEq, Repr

/-- The next step of a call of `AuPoll`. -/
inductive Pc
  | register
  | test (d : ℕ)
  | decide
  | park (ms : UInt64)
  | yield
  | resume
  | finish
  deriving DecidableEq, Repr

/-- A call of `AuPoll`: `checked` and `todo` are the descriptors before and after the loop
counter, and `chain` are the devices whose wait queues hold an entry of the call. -/
structure PollCall where
  checked : List PollFd := []
  todo : List PollFd
  timeout : Int
  deadline : UInt64
  ready : ℕ := 0
  config : Bool := true
  chain : List ℕ := []
  pc : Pc := .register
  deriving DecidableEq, Repr

def PollCall.fds (c : PollCall) : List PollFd := c.checked ++ c.todo

/-- `mask` is what the poll callback of a device returns, and `files` are the open files of
the process of a thread. -/
structure PollState where
  kern : State
  mask : ℕ → UInt16 := fun _ => 0
  queue : ℕ → List ℕ := fun _ => []
  files : ℕ → Int → Option File := fun _ _ => none
  calls : ℕ → Option PollCall := fun _ => none

variable {s s' : PollState} {t : ℕ} {c : PollCall}

def PollState.setCall (s : PollState) (t : ℕ) (c : PollCall) : PollState :=
  { s with calls := Function.update s.calls t (some c) }

/-- The bits of a descriptor that are reported. -/
def PollFd.wanted (f : PollFd) : UInt16 := f.events ||| pollErr ||| pollHup ||| pollNval

/-- What the check of a descriptor finds. -/
def PollState.fileMask (s : PollState) : Option File → UInt16
  | none => pollNval
  | some .regular => pollIn ||| pollOut
  | some (.device d) => s.mask d

/-- The loop goes on behind the first descriptor, whose mask was `mask`. -/
def PollCall.next (c : PollCall) (mask : UInt16) : PollCall :=
  match c.todo with
  | [] => c
  | f :: fs => { c with
      checked := c.checked ++ [f]
      todo := fs
      ready := if mask &&& f.wanted ≠ 0 then c.ready + 1 else c.ready
      pc := .register }

/-- The loop passes over a negative descriptor. -/
def PollCall.skip (c : PollCall) : PollCall :=
  match c.todo with
  | [] => c
  | f :: fs => { c with checked := c.checked ++ [f], todo := fs }

/-- `alloc` says whether `kmalloc` finds room for the entry. -/
def auPollWait (s : PollState) (t : ℕ) (c : PollCall) (d : ℕ) (alloc : Bool) :
    PollState × PollCall :=
  if ¬ c.config ∨ ¬ alloc then (s, c)
  else ({ s with queue := Function.update s.queue d (t :: s.queue d) },
    { c with chain := d :: c.chain })

def auWaitQueueWake (st : State) (q : List ℕ) : State := q.foldl auThreadWakePoller st

def auWaitQueueRemove (t : ℕ) (queue : ℕ → List ℕ) (d : ℕ) : ℕ → List ℕ :=
  Function.update queue d ((queue d).erase t)

/-- One step of a call. `now` and `now'` are the times the step reads. -/
def auPollStep (s : PollState) (t : ℕ) (c : PollCall) (alloc : Bool) (now now' : UInt64) :
    PollState :=
  match c.pc with
  | .register =>
    match c.todo with
    | [] => s.setCall t { c with config := false, pc := .decide }
    | f :: _ =>
      if f.fd < 0 then s.setCall t c.skip
      else
        match s.files t f.fd with
        | some (.device d) =>
          let r := auPollWait s t c d alloc
          r.1.setCall t { r.2 with pc := .test d }
        | file => s.setCall t (c.next (s.fileMask file))
  | .test d => s.setCall t (c.next (s.mask d))
  | .decide =>
    if c.ready > 0 ∨ c.timeout = 0 ∨ (c.timeout > 0 ∧ now ≥ c.deadline) then
      s.setCall t { c with pc := .finish }
    else
      { s with kern := s.kern.setThr t { s.kern.thr t with blocked_on_poll := true } }.setCall t
        { c with pc := .park (if c.deadline > now' then c.deadline - now' + 999 / 1000 else 1) }
  | .park ms =>
    { s with kern := if c.timeout > 0 then auSleepThread s.kern t ms now
                     else auBlockThread s.kern t }.setCall t { c with pc := .yield }
  | .yield => { s with kern := auScheduleNext s.kern }.setCall t { c with pc := .resume }
  | .resume =>
    { s with kern := s.kern.setThr t { s.kern.thr t with blocked_on_poll := false } }.setCall t
      { c with checked := [], todo := c.fds, pc := .register }
  | .finish => { s with
      queue := c.chain.foldl (auWaitQueueRemove t) s.queue
      calls := Function.update s.calls t none }

inductive PollAct
  | call (fds : List PollFd) (timeout : Int) (now : UInt64)
  | pollStep (alloc : Bool) (now now' : UInt64)
  | event (d : ℕ) (mask : UInt16)
  | drain (d : ℕ) (mask : UInt16)
  | setFile (t : ℕ) (fd : Int) (file : Option File)
  | sched (act : Act)

/-- The scheduler functions that other code calls, of which a thread calls those that take it
out of the ready list for itself, so not inside `AuPoll`. No thread ends. -/
def PollState.outside (s : PollState) (act : Act) : Bool :=
  match act with
  | .block t | .sleep t _ _ => (s.calls t).isNone
  | .waitForTermination _ _ => (s.calls s.kern.current_thread).isNone
  | .create _ => true
  | act => act.movesOnly

/-- `AuPoll` is called by a thread that runs, and its next step is made while that thread is
the current one: it is in the ready list, but for the moment before `AuScheduleNext`. -/
def pollMachine (s : PollState) : PollAct → PollState
  | .call fds timeout now =>
    let t := s.kern.current_thread
    if t ∈ s.kern.members .ready ∧ s.calls t = none ∧ fds.length ≤ pollMaxFdMonitor then
      s.setCall t { todo := fds, timeout := timeout,
                    deadline := if timeout > 0 then now + timeout.toNat.toUInt64 else 0 }
    else s
  | .pollStep alloc now now' =>
    let t := s.kern.current_thread
    match s.calls t with
    | some c =>
      if c.pc = .yield ∨ t ∈ s.kern.members .ready then auPollStep s t c alloc now now' else s
    | none => s
  | .event d mask => { s with
      mask := Function.update s.mask d (s.mask d ||| mask)
      kern := auWaitQueueWake s.kern (s.queue d) }
  | .drain d mask => { s with mask := Function.update s.mask d (s.mask d &&& mask) }
  | .setFile t fd file => { s with
      files := Function.update s.files t (Function.update (s.files t) fd file) }
  | .sched act => if s.outside act then { s with kern := Sched.step s.kern act } else s

def boot (idle : ℕ) : PollState := { kern := State.init idle }

/-- The check of the descriptor would find it ready. -/
def PollState.isReady (s : PollState) (t : ℕ) (f : PollFd) : Bool :=
  0 ≤ f.fd ∧ s.fileMask (s.files t f.fd) &&& f.wanted ≠ 0

end Xeneva.Poll
