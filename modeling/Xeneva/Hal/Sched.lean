import Xeneva.Base.Run
import Xeneva.Base.DList

/-!
# The scheduler lists

A thread is an address, zero is `NULL`. The four lists are threaded through the `next`
and `prev` fields of the threads, and each scheduler function runs with interrupts masked
and the lock held. `live` are the threads that were allocated and not freed.
-/

namespace Xeneva.Sched
open Base

inductive ThreadState
  | ready | blocked | sleep | killable | leftInKernel | running
  deriving DecidableEq, Repr

structure AA64Thread where
  state : ThreadState := .ready
  next : ℕ := 0
  prev : ℕ := 0
  thread_id : ℕ := 0
  sleepQuanta : UInt64 := 0
  sleep_until_us : UInt64 := 0
  blocked_on_poll : Bool := false
  waitlist : List ℕ := []
  edf_enabled : Bool := false
  edf_waiting : Bool := false
  edf_release_us : UInt64 := 0
  edf_deadline_us : UInt64 := 0
  deriving DecidableEq, Repr

/-- The lists `thread_list`, `blocked_thr`, `trash_thr` and `sleep_thr`. -/
inductive Queue
  | ready | blocked | trash | sleep
  deriving DecidableEq, Repr

structure ThreadList where
  head : ℕ := 0
  last : ℕ := 0
  deriving DecidableEq, Repr

structure State where
  thr : ℕ → AA64Thread
  live : List ℕ
  lists : Queue → ThreadList
  current_thread : ℕ
  idle_thr : ℕ
  thread_id : ℕ

def State.setThr (st : State) (t : ℕ) (c : AA64Thread) : State :=
  { st with thr := Function.update st.thr t c }

def State.setList (st : State) (q : Queue) (l : ThreadList) : State :=
  { st with lists := Function.update st.lists q l }

def State.setState (st : State) (t : ℕ) (s : ThreadState) : State :=
  st.setThr t { st.thr t with state := s }

/-- The threads met by a walk over a list; no walk of an intact list is longer than this. -/
def State.members (st : State) (q : Queue) : List ℕ :=
  walk 0 (fun a => (st.thr a).next) st.live.length (st.lists q).head

def schedLink (q : Queue) (st : State) (t : ℕ) : State :=
  let st := st.setThr t { st.thr t with next := 0, prev := 0 }
  if (st.lists q).head = 0 then st.setList q ⟨t, t⟩
  else
    let last := (st.lists q).last
    let st := st.setThr last { st.thr last with next := t }
    let st := st.setThr t { st.thr t with prev := last }
    st.setList q { st.lists q with last := t }

/-- The forward half of the unlinking: the predecessor, or the head. -/
def unlinkNext (q : Queue) (st : State) (t : ℕ) : State :=
  if (st.thr t).prev ≠ 0 then
    st.setThr (st.thr t).prev { st.thr (st.thr t).prev with next := (st.thr t).next }
  else if (st.lists q).head = t then st.setList q { st.lists q with head := (st.thr t).next }
  else st

/-- The backward half: the successor, or the last. -/
def unlinkPrev (q : Queue) (st : State) (t : ℕ) : State :=
  if (st.thr t).next ≠ 0 then
    st.setThr (st.thr t).next { st.thr (st.thr t).next with prev := (st.thr t).prev }
  else if (st.lists q).last = t then st.setList q { st.lists q with last := (st.thr t).prev }
  else st

/-- The fields of the thread itself are left as they are. -/
def schedUnlink (q : Queue) (st : State) (t : ℕ) : State :=
  if t = 0 ∨ (st.lists q).head = 0 then st else unlinkPrev q (unlinkNext q st t) t

/-- The loop that looks for a thread in a list and unlinks it where it finds it. -/
def unlinkIfFound (q : Queue) (st : State) (t : ℕ) : State :=
  if t ∈ st.members q then schedUnlink q st t else st

def auThreadInsert (st : State) (t : ℕ) : State := schedLink .ready st t

/-- `t` is the block `kmalloc` returned. -/
def auCreateKthread (st : State) (t : ℕ) : State :=
  let st := { st.setThr t { thread_id := st.thread_id } with
    live := t :: st.live, thread_id := st.thread_id + 1 }
  auThreadInsert st t

def auBlockThread (st : State) (t : ℕ) : State :=
  schedLink .blocked (schedUnlink .ready (st.setState t .blocked) t) t

def auUnblockThread (st : State) (t : ℕ) : State :=
  let st := if (st.thr t).state ≠ .leftInKernel then st.setState t .ready else st
  if t ∈ st.members .blocked then schedLink .ready (schedUnlink .blocked st t) t else st

def auThreadWakePoller (st : State) (t : ℕ) : State :=
  if t = 0 ∨ ¬ (st.thr t).blocked_on_poll then st
  else if t ∈ st.members .blocked then
    let st := schedUnlink .blocked st t
    let st := if (st.thr t).state ≠ .leftInKernel then st.setState t .ready else st
    schedLink .ready st t
  else if t ∈ st.members .sleep then
    let st := schedUnlink .sleep (st.setThr t { st.thr t with sleepQuanta := 0 }) t
    let st := if (st.thr t).state ≠ .leftInKernel then st.setState t .ready else st
    schedLink .ready st t
  else st

/-- `now` is the time the counter shows, in microseconds. -/
def auSleepThread (st : State) (t : ℕ) (ms now : UInt64) : State :=
  let st := st.setThr t { st.thr t with
    state := .sleep, sleepQuanta := ms, sleep_until_us := now + ms * 1000 }
  schedLink .sleep (schedUnlink .ready st t) t

def auThreadMakeReady (st : State) (t : ℕ) : State :=
  if (st.thr t).state = .sleep then
    let st := schedUnlink .sleep (st.setThr t { st.thr t with sleepQuanta := 0 }) t
    (schedLink .ready st t).setState t .ready
  else if (st.thr t).state = .blocked then auUnblockThread st t
  else st

/-- A walk over a list that reads the next thread before `f` handles the present one. -/
def forEachSaved (f : State → ℕ → State) : ℕ → State → ℕ → State
  | 0, st, _ => st
  | n + 1, st, t => if t = 0 then st else forEachSaved f n (f st t) (st.thr t).next

/-- One turn of the loop of `AuHandleSleepThreads`. -/
def wakeSleeper (now : UInt64) (st : State) (t : ℕ) : State :=
  let st := if (st.thr t).sleepQuanta > 0 ∧ now ≥ (st.thr t).sleep_until_us then
    st.setThr t { st.thr t with sleepQuanta := 0 } else st
  if (st.thr t).sleepQuanta = 0 then
    let st := if (st.thr t).state ≠ .leftInKernel then st.setState t .ready else st
    schedLink .ready (schedUnlink .sleep st t) t
  else st

def auHandleSleepThreads (st : State) (now : UInt64) : State :=
  forEachSaved (wakeSleeper now) st.live.length st (st.lists .sleep).head

/-- One turn of the loop of `AuEDFHandleReleases`. -/
def releaseEDF (now : UInt64) (st : State) (t : ℕ) : State :=
  if (st.thr t).edf_enabled ∧ (st.thr t).edf_waiting ∧
      ((st.thr t).state = .blocked ∨ (st.thr t).state = .leftInKernel) ∧
      now ≥ (st.thr t).edf_release_us then
    auUnblockThread (st.setThr t { st.thr t with edf_waiting := false }) t
  else st

def auEDFHandleReleases (st : State) (now : UInt64) : State :=
  forEachSaved (releaseEDF now) st.live.length st (st.lists .blocked).head

def auEDFRemove (st : State) (t : ℕ) : State :=
  if ¬ (st.thr t).edf_enabled then st
  else st.setThr t { st.thr t with edf_enabled := false, edf_waiting := false }

def auThreadMoveToTrash (st : State) (t : ℕ) : State :=
  if t = 0 ∨ (st.thr t).state = .killable then st
  else
    let st := (auEDFRemove st t).setState t .killable
    let st := unlinkIfFound .sleep (unlinkIfFound .blocked (unlinkIfFound .ready st t) t) t
    schedLink .trash st t

/-- The loop of `AuThreadAwakeWaiters`: what is left of the waitlist, and the state.
`found` says which waiters have a process. -/
def awakeLoop (found : ℕ → Bool) : List ℕ → State → List ℕ × State
  | [], st => ([], st)
  | w :: ws, st =>
    if w = 0 then awakeLoop found ws st
    else if found w then awakeLoop found ws (auUnblockThread st w)
    else (ws, st)

def auThreadAwakeWaiters (found : ℕ → Bool) (st : State) (t : ℕ) : State :=
  let r := awakeLoop found (st.thr t).waitlist st
  r.2.setThr t { r.2.thr t with waitlist := r.1 }

def auThreadFindByID (st : State) (q : Queue) (id : ℕ) : Option ℕ :=
  (st.members q).find? fun t => (st.thr t).thread_id = id

/-- The part of `AuThreadWaitForTermination` before it schedules; `found` says whether
the current thread has a process. -/
def auThreadWaitForTermination (st : State) (id : ℕ) (found : Bool) : State :=
  match (auThreadFindByID st .ready id).or
      ((auThreadFindByID st .blocked id).or (auThreadFindByID st .sleep id)) with
  | none => st
  | some d =>
    if ¬ found then st
    else
      auBlockThread (st.setThr d { st.thr d with
        waitlist := (st.thr d).waitlist ++ [st.current_thread] }) st.current_thread

/-- `threads` are the threads of the process, zero for an empty place. -/
def auExitSubThread (found : ℕ → Bool) (st : State) (threads : List ℕ) (t id : ℕ) : State :=
  match threads.find? fun x => x ≠ 0 ∧ (st.thr x).thread_id = id ∧ x = t with
  | none => st
  | some x => auThreadMoveToTrash (auThreadAwakeWaiters found (st.setState x .killable) x) x

/-- Takes the thread out of the trash list and frees it. -/
def auCleanThread (st : State) (t : ℕ) : State :=
  let st := schedUnlink .trash st t
  { st with live := st.live.erase t }

def schedValidateSteps : ℕ := 8192

/-- A thread that may run: ready, or left inside the kernel. -/
def runnable (st : State) (t : ℕ) : Bool :=
  (st.thr t).state = .ready ∨ (st.thr t).state = .leftInKernel

/-- Whether `t` goes before `best` under earliest deadline first. -/
def earlier (st : State) (t best : ℕ) : Bool :=
  (st.thr t).edf_deadline_us < (st.thr best).edf_deadline_us ∨
    ((st.thr t).edf_deadline_us = (st.thr best).edf_deadline_us ∧
      (st.thr t).thread_id < (st.thr best).thread_id)

def auEDFPickNext (st : State) : Option ℕ :=
  (st.members .ready).foldl (fun best t =>
    if t = st.idle_thr ∨ ¬ (st.thr t).edf_enabled ∨ ¬ runnable st t then best
    else match best with
      | none => some t
      | some b => if earlier st t b then some t else some b) none

/-- The thread after the cursor, round the ready list. -/
def nextCursor (st : State) (cursor : ℕ) : ℕ :=
  if (st.thr cursor).next ≠ 0 then (st.thr cursor).next else (st.lists .ready).head

/-- The round-robin walk of `AA64NextThread` from `start`. -/
def nextLoop (st : State) (start : ℕ) : ℕ → ℕ → Option ℕ
  | 0, _ => none
  | n + 1, cursor =>
    if cursor = 0 then none
    else if cursor ≠ st.idle_thr ∧ runnable st cursor then some cursor
    else if nextCursor st cursor = start then none
    else nextLoop st start n (nextCursor st cursor)

/-- Where the round-robin walk starts. -/
def nextStart (st : State) : ℕ :=
  if st.current_thread ≠ 0 ∧ (st.thr st.current_thread).next ≠ 0 then
    (st.thr st.current_thread).next
  else (st.lists .ready).head

/-- The thread `AA64NextThread` makes the current one. -/
def nextThread (st : State) : ℕ :=
  match auEDFPickNext st with
  | some t => t
  | none => (nextLoop st (nextStart st) schedValidateSteps (nextStart st)).getD st.idle_thr

def aa64NextThread (st : State) : State := { st with current_thread := nextThread st }

/-- The end of `AuScheduleThread`: choose a thread and mark it. -/
def switchThread (st : State) : State :=
  let st := aa64NextThread st
  let c := st.current_thread
  if (st.thr c).state = .ready then st.setState c .running
  else if (st.thr c).state = .leftInKernel then st.setState c .ready
  else st

/-- The beginning of `AuScheduleThread`: the interrupted thread may run again. -/
def preemptThread (st : State) : State :=
  if (st.thr st.current_thread).state = .running then st.setState st.current_thread .ready else st

def auScheduleNext (st : State) : State :=
  { st.setState st.current_thread .leftInKernel with current_thread := st.idle_thr }

/-- The states `AuSchedValidateLists` admits in a list. -/
def admits : Queue → List ThreadState
  | .ready => [.ready, .running, .leftInKernel]
  | .blocked => [.blocked, .leftInKernel]
  | .sleep => [.sleep, .leftInKernel]
  | .trash => [.killable]

/-- The loop of `schedValidateOne` from thread `t` with `prev` before it: the last thread
and the number of threads, if all is well. -/
def validateLoop (st : State) (q : Queue) : ℕ → ℕ → ℕ → Option (ℕ × ℕ)
  | n, prev, t =>
    if t = 0 then some (prev, 0)
    else
      match n with
      | 0 => none
      | n + 1 =>
        if (st.thr t).prev ≠ prev ∨ (st.thr t).state ∉ admits q then none
        else (validateLoop st q n t (st.thr t).next).map fun r => (r.1, r.2 + 1)

/-- The number of threads in the list, if it passes. -/
def schedValidateOne (st : State) (q : Queue) : Option ℕ :=
  match validateLoop st q schedValidateSteps 0 (st.lists q).head with
  | none => none
  | some (last, count) =>
    if last ≠ (st.lists q).last ∨
        ((st.lists q).last ≠ 0 ∧ (st.thr (st.lists q).last).next ≠ 0) then none
    else some count

def auSchedValidateLists (st : State) : Bool :=
  match schedValidateOne st .ready, schedValidateOne st .blocked, schedValidateOne st .sleep,
    schedValidateOne st .trash with
  | some a, some b, some c, some d => 0 < a + b + c + d
  | _, _, _, _ => false

inductive Act
  | create (t : ℕ)
  | block (t : ℕ)
  | unblock (t : ℕ)
  | sleep (t : ℕ) (ms now : UInt64)
  | makeReady (t : ℕ)
  | wakePoller (t : ℕ)
  | handleSleepThreads (now : UInt64)
  | edfHandleReleases (now : UInt64)
  | awakeWaiters (found : ℕ → Bool) (t : ℕ)
  | waitForTermination (id : ℕ) (found : Bool)
  | moveToTrash (t : ℕ)
  | exitSubThread (found : ℕ → Bool) (threads : List ℕ) (t id : ℕ)
  | clean (t : ℕ)
  | preempt
  | switch
  | scheduleNext
  | setPoll (t : ℕ) (on : Bool)
  | setEDF (t : ℕ) (waiting : Bool) (release deadline : UInt64)

/-- `kmalloc` returns no block that is in use. -/
def step (st : State) : Act → State
  | .create t => if t = 0 ∨ t ∈ st.live then st else auCreateKthread st t
  | .block t => auBlockThread st t
  | .unblock t => auUnblockThread st t
  | .sleep t ms now => auSleepThread st t ms now
  | .makeReady t => auThreadMakeReady st t
  | .wakePoller t => auThreadWakePoller st t
  | .handleSleepThreads now => auHandleSleepThreads st now
  | .edfHandleReleases now => auEDFHandleReleases st now
  | .awakeWaiters found t => auThreadAwakeWaiters found st t
  | .waitForTermination id found => auThreadWaitForTermination st id found
  | .moveToTrash t => auThreadMoveToTrash st t
  | .exitSubThread found threads t id => auExitSubThread found st threads t id
  | .clean t => auCleanThread st t
  | .preempt => preemptThread st
  | .switch => switchThread st
  | .scheduleNext => auScheduleNext st
  | .setPoll t on => st.setThr t { st.thr t with blocked_on_poll := on }
  | .setEDF t waiting release deadline => st.setThr t { st.thr t with
      edf_enabled := true, edf_waiting := waiting, edf_release_us := release,
      edf_deadline_us := deadline }

/-- `AuSchedulerInitialize`: the idle thread is the only one. -/
def State.init (idle : ℕ) : State :=
  let st : State := { thr := fun _ => {}, live := [], lists := fun _ => {},
                      current_thread := 0, idle_thr := idle, thread_id := 0 }
  { auCreateKthread st idle with current_thread := idle }

def exec (idle : ℕ) (acts : List Act) : State := run step (State.init idle) acts

end Xeneva.Sched
