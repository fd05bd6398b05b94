import Xeneva.Hal.Sched

/-!
# Waiting for termination

A thread waits for a thread on that thread's list, or for a process on the process's list. Each
function runs with the other threads stopped. A waiter on a list is a thread; the model adds
the number of the wait.
-/

namespace Xeneva.Termination
open Base
open Sched (ThreadState Queue)

/-- An entry of a wait list. -/
structure Waiter where
  thr : ℕ
  id : ℕ
deriving DecidableEq

/-- `place` is the scheduler list that the thread is on. -/
structure AA64Thread where
  state : ThreadState := .ready
  place : Option Queue := none
  waitlist : Option (List Waiter) := none

/-- `busy` and `died` are `PROCESS_STATE_BUSY_WAIT` and `PROCESS_STATE_DIED`. -/
structure AuProcess where
  main_thread : Option ℕ := none
  threads : List ℕ := []
  busy : Bool := false
  died : Bool := false
  nonKillable : Bool := false
  waiting_threads : UInt16 := 0
  waitlist : Option (List Waiter) := none

inductive Target
  | thread (t : ℕ)
  | process (p : ℕ)
deriving DecidableEq

/-- A wait that a system call began. -/
structure Wait where
  id : ℕ
  waiter : ℕ
  target : Target
deriving DecidableEq

/-- `procs` is the process list. `waits` are all the waits there have been, and `woken` those
whose waiter a termination unblocked. -/
structure State where
  thr : ℕ → AA64Thread := fun _ => {}
  proc : ℕ → AuProcess := fun _ => {}
  procs : List ℕ := []
  root_proc : ℕ := 0
  thread_id : ℕ := 0
  pid : ℕ := 0
  waits : List Wait := []
  woken : List ℕ := []

def State.setThr (s : State) (t : ℕ) (x : AA64Thread) : State :=
  { s with thr := Function.update s.thr t x }

def State.setProc (s : State) (p : ℕ) (x : AuProcess) : State :=
  { s with proc := Function.update s.proc p x }

def auBlockThread (s : State) (t : ℕ) : State :=
  let x := s.thr t
  s.setThr t { x with state := .blocked, place := some .blocked }

def auUnblockThread (s : State) (t : ℕ) : State :=
  let x := s.thr t
  s.setThr t { x with
    state := if x.state ≠ .leftInKernel then .ready else x.state
    place := if x.place = some .blocked then some .ready else x.place }

def auThreadMoveToTrash (s : State) (t : ℕ) : State :=
  let x := s.thr t
  if x.state = .killable then s
  else s.setThr t { x with state := .killable, place := some .trash }

/-- Finds a thread on the ready, blocked or sleep list. -/
def auThreadFindByID (s : State) (tid : ℕ) : Option ℕ :=
  match (s.thr tid).place with
  | some .ready | some .blocked | some .sleep => some tid
  | _ => none

/-- The process of a main thread. -/
def auProcessFindThread (s : State) (t : ℕ) : Option ℕ :=
  s.procs.find? fun p => (s.proc p).main_thread = some t

def auProcessReapWaitcount (s : State) (p : ℕ) : State :=
  let x := s.proc p
  let n := x.waiting_threads - 1
  if n = 0 ∨ n ≥ 0x8000 then s.setProc p { x with waiting_threads := 0, busy := false }
  else s.setProc p { x with waiting_threads := n }

/-- `list_add`, which fails without memory. -/
def listAdd (l : Option (List Waiter)) (w : Waiter) (alloc : Bool) : Option (List Waiter) :=
  if alloc then l.map (· ++ [w]) else l

def auThreadWaitForTermination (s : State) (curr tid : ℕ) (alloc : Bool) : State :=
  match auThreadFindByID s tid with
  | none => s
  | some desired =>
    let d := s.thr desired
    if d.waitlist = none then s
    else
      match auProcessFindThread s curr with
      | none => s
      | some p =>
        let x := s.proc p
        let id := s.waits.length
        let s := s.setProc p { x with busy := true, waiting_threads := x.waiting_threads + 1 }
        let s := s.setThr desired { d with waitlist := listAdd d.waitlist ⟨curr, id⟩ alloc }
        let s := { s with waits := s.waits ++ [⟨id, curr, .thread desired⟩] }
        auBlockThread s curr

/-- `ProcessWaitForTermination` of a child; `child` is the process with the pid. -/
def auProcessWaitForTermination (s : State) (curr child : ℕ) (alloc : Bool) : State :=
  if child ∉ s.procs then s
  else
    let x := s.proc child
    if x.died ∨ x.waitlist = none then s
    else
      let id := s.waits.length
      let s := auBlockThread s curr
      let s := s.setProc child { x with waitlist := listAdd x.waitlist ⟨curr, id⟩ alloc }
      { s with waits := s.waits ++ [⟨id, curr, .process child⟩] }

/-- `ProcessWaitForTermination(-1)`, beside the reaping: the state is overwritten. -/
def auProcessWaitAny (s : State) (curr : ℕ) : State :=
  match auProcessFindThread s curr with
  | none => s
  | some p =>
    let x := s.proc p
    s.setProc p { x with busy := false, died := false }

def wake (s : State) (w : Waiter) : State :=
  let s := auUnblockThread s w.thr
  { s with woken := w.id :: s.woken }

/-- The loop of `AuThreadAwakeWaiters`, with what it leaves on the list. -/
def awakeLoop (s : State) : List Waiter → State × List Waiter
  | [] => (s, [])
  | w :: ws =>
    match auProcessFindThread s w.thr with
    | none => (s, ws)
    | some p => awakeLoop (wake (auProcessReapWaitcount s p) w) ws

def auThreadAwakeWaiters (s : State) (t : ℕ) : State :=
  match (s.thr t).waitlist with
  | none => s
  | some ws =>
    let (s, rest) := awakeLoop s ws
    let x := s.thr t
    s.setThr t { x with waitlist := some rest }

def auProcessWakeWaiters (s : State) (p : ℕ) : State :=
  match (s.proc p).waitlist with
  | none => s
  | some ws =>
    let s := ws.foldl wake s
    let x := s.proc p
    s.setProc p { x with waitlist := none }

/-- What `AuProcessFreeKeResource` does here. -/
def auProcessFreeKeResource (s : State) (t : ℕ) : State := auThreadAwakeWaiters s t

/-- The second loop of `AuProcessExit`. -/
def freeThreads (current : ℕ) (main : Option ℕ) : List ℕ → State → State
  | [], s => s
  | killable :: ts, s =>
    if some killable = main ∨ (s.thr killable).state = .killable then freeThreads current main ts s
    else
      let s := auProcessFreeKeResource s killable
      let s := if killable = current then auThreadMoveToTrash s killable else s
      freeThreads current main ts s

/-- The first loop: the other threads are stopped. -/
def stopThreads (current : ℕ) (main : Option ℕ) : List ℕ → State → State
  | [], s => s
  | t :: ts, s =>
    let s := if t ≠ current ∧ some t ≠ main then auThreadMoveToTrash s t else s
    stopThreads current main ts s

/-- A sub-thread that exits stops the main thread. -/
def stopMain (current : ℕ) (s : State) : Option ℕ → State
  | some m => if m ≠ current then auThreadMoveToTrash s m else s
  | none => s

def freeMain (s : State) : Option ℕ → State
  | some m => auProcessFreeKeResource s m
  | none => s

/-- The exit is refused. -/
def State.Refuses (s : State) (p : ℕ) : Prop :=
  (s.proc p).died = true ∨ (s.proc p).busy = true ∨ p = s.root_proc ∨ (s.proc p).nonKillable = true

instance (s : State) (p : ℕ) : Decidable (s.Refuses p) := by
  unfold State.Refuses
  infer_instance

def auProcessExit (s : State) (p current : ℕ) : State :=
  if s.Refuses p then s
  else
    let main := (s.proc p).main_thread
    let threads := (s.proc p).threads
    let s := stopMain current s main
    let s := stopThreads current main threads s
    let s := freeMain s main
    let s := auProcessWakeWaiters s p
    let s := freeThreads current main threads s
    let x := s.proc p
    s.setProc p { x with died := true, busy := false }

/-- `AuExitSubThread` for the thread itself: as it is killable already, it is not moved. -/
def auExitSubThread (s : State) (t : ℕ) : State :=
  let x := s.thr t
  let s := s.setThr t { x with state := .killable }
  let s := auProcessFreeKeResource s t
  auThreadMoveToTrash s t

/-- `AuProcessCanReap`, for a process whose address space is not in use. -/
def State.CanReap (s : State) (p current : ℕ) : Prop :=
  (s.proc p).died = true ∧
    ∀ t ∈ (s.proc p).main_thread.toList ++ (s.proc p).threads,
      t ≠ current ∧ (s.thr t).state = .killable

instance (s : State) (p current : ℕ) : Decidable (s.CanReap p current) := by
  unfold State.CanReap
  infer_instance

/-- `AuProcessClean`: the threads are freed, and the process leaves the list. -/
def auProcessClean (s : State) (p : ℕ) : State :=
  let x := s.proc p
  let freed := x.main_thread.toList ++ x.threads
  let s := { s with thr := fun t => if t ∈ freed then { state := .killable } else s.thr t }
  let s := s.setProc p { x with main_thread := none, threads := [] }
  let s := auProcessWakeWaiters s p
  { s with procs := s.procs.filter (· ≠ p) }

inductive Act
  | newProcess (nonKillable : Bool)
  | newThread (p : ℕ)
  | threadWait (curr tid : ℕ) (alloc : Bool)
  | processWait (curr child : ℕ) (alloc : Bool)
  | waitAny (curr : ℕ)
  | exitThread (p t : ℕ)
  /-- By the exit call or a fault of a thread. -/
  | processExit (p current : ℕ)
  | reap (p current : ℕ)
  /-- Something else unblocks a thread. -/
  | unblock (t : ℕ)

/-- The thread can run. -/
def State.Runs (s : State) (t : ℕ) : Prop :=
  (s.thr t).state = .ready ∧ (s.thr t).place = some .ready

instance (s : State) (t : ℕ) : Decidable (s.Runs t) := by
  unfold State.Runs
  infer_instance

def step (s : State) : Act → State
  | .newProcess nonKillable =>
    { s with
      thread_id := s.thread_id + 1
      pid := s.pid + 1
      procs := s.procs ++ [s.pid]
      thr := Function.update s.thr s.thread_id { place := some .ready, waitlist := some [] }
      proc := Function.update s.proc s.pid
        { main_thread := some s.thread_id, nonKillable, waitlist := some [] } }
  | .newThread p =>
    let x := s.proc p
    if p ∈ s.procs ∧ !x.died then
      { s with
        thread_id := s.thread_id + 1
        thr := Function.update s.thr s.thread_id { place := some .ready, waitlist := some [] }
        proc := Function.update s.proc p { x with threads := x.threads ++ [s.thread_id] } }
    else s
  | .threadWait curr tid alloc =>
    if s.Runs curr then auThreadWaitForTermination s curr tid alloc else s
  | .processWait curr child alloc =>
    if s.Runs curr then auProcessWaitForTermination s curr child alloc else s
  | .waitAny curr => if s.Runs curr then auProcessWaitAny s curr else s
  | .exitThread p t =>
    if s.Runs t ∧ t ∈ (s.proc p).threads then auExitSubThread s t else s
  | .processExit p current =>
    if p ∈ s.procs ∧ s.Runs current ∧
        ((s.proc p).main_thread = some current ∨ current ∈ (s.proc p).threads) then
      auThreadMoveToTrash (auProcessExit s p current) current
    else s
  | .reap p current =>
    if p ∈ s.procs ∧ s.CanReap p current then auProcessClean s p else s
  | .unblock t => if (s.thr t).state = .killable then s else auUnblockThread s t

def State.Gone (s : State) : Target → Prop
  | .thread t => (s.thr t).state = .killable
  | .process p => (s.proc p).died = true

def Target.isThread : Target → Bool
  | .thread _ => true
  | .process _ => false

/-- The waits for a target whose waiter no termination has unblocked. -/
def State.pending (s : State) (T : Target) : List Wait :=
  s.waits.filter fun w => w.target = T ∧ w.id ∉ s.woken

/-- The waits of a process's main thread, the only one that can, for threads. -/
def State.threadWaits (s : State) (p : ℕ) : List Wait :=
  s.waits.filter fun w =>
    w.target.isThread ∧ w.id ∉ s.woken ∧ (s.proc p).main_thread = some w.waiter

def Wait.entry (w : Wait) : Waiter := ⟨w.waiter, w.id⟩

/-- A wait ends once, when its target has terminated and not before, unless its waiter has
terminated too; and a process counts its waits for threads and is busy while there are any. -/
structure Served (s : State) : Prop where
  once : s.woken.Nodup
  gone : ∀ w ∈ s.waits, w.id ∈ s.woken → s.Gone w.target
  served : ∀ w ∈ s.waits, s.Gone w.target → (s.thr w.waiter).state ≠ .killable → w.id ∈ s.woken
  lists : ∀ t, (s.thr t).waitlist.getD [] = (s.pending (.thread t)).map Wait.entry
  count : ∀ p ∈ s.procs, (s.proc p).waiting_threads.toNat = (s.threadWaits p).length
  busy : ∀ p ∈ s.procs, (s.proc p).busy = true ↔ 0 < (s.proc p).waiting_threads.toNat

def State.NotWaiting (s : State) (t : ℕ) : Prop := ∀ w ∈ s.waits, w.waiter = t → w.id ∈ s.woken

instance (s : State) (t : ℕ) : Decidable (s.NotWaiting t) := by
  unfold State.NotWaiting
  infer_instance

/-- Memory for the entry of a wait is there; a thread waits for one that has not exited, and
fewer than 32767 times at once; a process that counts waits does not wait for any child; no
thread exits while it is on a wait list; and a process exits when it may and when nobody waits
for a thread of it other than its main thread and the one that exits. -/
def Kind (s : State) : Act → Prop
  | .threadWait curr tid alloc => alloc = true ∧ (s.thr tid).state ≠ .killable ∧
    ∀ p ∈ auProcessFindThread s curr, (s.proc p).waiting_threads < 32767
  | .processWait _ _ alloc => alloc = true
  | .waitAny curr => ∀ p ∈ auProcessFindThread s curr, (s.proc p).waiting_threads = 0
  | .exitThread _ t => s.NotWaiting t
  | .processExit p current => ¬ s.Refuses p ∧
    (∀ t ∈ (s.proc p).main_thread.toList ++ (s.proc p).threads, s.NotWaiting t) ∧
    ∀ t ∈ (s.proc p).threads, t ≠ current → s.pending (.thread t) = []
  | _ => True

instance : ∀ s a, Decidable (Kind s a)
  | _, .threadWait .. => inferInstanceAs (Decidable (_ ∧ _ ∧ _))
  | _, .processWait .. => inferInstanceAs (Decidable (_ = true))
  | s, .waitAny curr => inferInstanceAs
    (Decidable (∀ p ∈ auProcessFindThread s curr, (s.proc p).waiting_threads = 0))
  | s, .exitThread _ t => inferInstanceAs (Decidable (s.NotWaiting t))
  | _, .processExit .. => inferInstanceAs (Decidable (_ ∧ _ ∧ _))
  | _, .newProcess _ => inferInstanceAs (Decidable True)
  | _, .newThread _ => inferInstanceAs (Decidable True)
  | _, .reap .. => inferInstanceAs (Decidable True)
  | _, .unblock _ => inferInstanceAs (Decidable True)

end Xeneva.Termination
