import Xeneva.Base.Run

/-!
# The IPC tables

The two fixed tables of the kernel IPC, endpoints and calls, and the operations
on them. Every operation runs with interrupts masked, so one operation is one
step; a sleeping operation touches the tables only before it sleeps. A C string
is the list of its bytes before the terminator.
-/

namespace Xeneva.Ipc
open Base

/-- A 32-bit machine word: a generation, an endpoint handle or a call id. -/
abbrev Word := BitVec 32

abbrev EpSlot := Fin 16
abbrev CallSlot := Fin 32

def epQueue : ℕ := 8
def ipcMaxMsg : ℕ := 8192
def ipcNameMax : ℕ := 24

def ipcOk : ℤ := 0
def ipcEPerm : ℤ := -1
def ipcEInval : ℤ := -2
def ipcENoent : ℤ := -3
def ipcEBusy : ℤ := -4
def ipcETimeout : ℤ := -5
def ipcEDead : ℤ := -6
def ipcEEmpty : ℤ := -7
def ipcETooBig : ℤ := -8

def ipcAclAny : ℕ := 0
def ipcAclDaemons : ℕ := 1

inductive CallState
  | free | queued | serving | done | failed | abandoned
  deriving DecidableEq, Repr

/-- `used`, the owner (a process pointer) and the queue are cleared together. -/
structure Endpoint where
  used : Bool := false
  gen : Word := 0
  name : List UInt8 := []
  owner : ℕ := 0
  owner_pid : ℤ := 0
  acl : ℕ := 0
  waiter_tid : UInt64 := 0
  queue : List CallSlot := []
  deriving DecidableEq, Repr

structure Call where
  state : CallState := .free
  gen : Word := 0
  ep : ℕ := 0
  ep_gen : Word := 0
  client_pid : ℤ := 0
  client_uid : ℤ := 0
  client_gid : ℤ := 0
  client_tid : UInt64 := 0
  req : List UInt8 := []
  resp : List UInt8 := []
  server_status : ℤ := 0
  fail : ℤ := 0
  deriving DecidableEq, Repr

/-- A process as the IPC code reads it: its (non-null) address, pid and credentials. -/
structure AuProcess where
  ptr : ℕ
  proc_id : ℤ
  uid : ℤ := 0
  gid : ℤ := 0
  sgid : List ℤ := []
  deriving DecidableEq, Repr

/-- The tables, with what they read from the rest of the kernel: the group id of the
daemons, which processes have died, and the threads `wake_tid` was called for. -/
structure State where
  g_ep : EpSlot → Endpoint
  g_call : CallSlot → Call
  g_gen_counter : Word
  daemonsGid : ℤ
  died : ℕ → Bool
  woken : List UInt64

def State.init (daemonsGid : ℤ) : State where
  g_ep := fun _ => {}
  g_call := fun _ => {}
  g_gen_counter := 1
  daemonsGid := daemonsGid
  died := fun _ => false
  woken := []

def State.setEp (st : State) (i : EpSlot) (e : Endpoint) : State :=
  { st with g_ep := Function.update st.g_ep i e }

def State.setCall (st : State) (s : CallSlot) (c : Call) : State :=
  { st with g_call := Function.update st.g_call s c }

def ipcUserPtr (a len : UInt64) : Bool :=
  a != 0 && a + len > a && a + len < 0x0000800000000000

def makeId (gen : Word) (slot : ℕ) : Word := (gen <<< 8) ||| BitVec.ofNat 32 slot

/-- The slot number in the low byte of a handle or an id. -/
def idSlot (id : Word) : ℕ := (id &&& 0xFF).toNat

def epFromHandle (st : State) (h : Word) : Option EpSlot :=
  if hs : idSlot h < 16 then
    if (st.g_ep ⟨idSlot h, hs⟩).used ∧ h.sshiftRight 8 = (st.g_ep ⟨idSlot h, hs⟩).gen then
      some ⟨idSlot h, hs⟩
    else none
  else none

def callFromId (st : State) (id : Word) : Option CallSlot :=
  if hs : idSlot id < 32 then
    if (st.g_call ⟨idSlot id, hs⟩).state ≠ .free ∧
        id.sshiftRight 8 = (st.g_call ⟨idSlot id, hs⟩).gen then
      some ⟨idSlot id, hs⟩
    else none
  else none

/-- `memset` of the whole call: the state becomes free and the generation zero. -/
def callFree (st : State) (s : CallSlot) : State := st.setCall s {}

def wakeTid (st : State) (tid : UInt64) : State :=
  if tid = 0 then st else { st with woken := tid :: st.woken }

def callFail (st : State) (s : CallSlot) (why : ℤ) : State :=
  if (st.g_call s).state = .abandoned then callFree st s
  else wakeTid (st.setCall s { st.g_call s with state := .failed, fail := why })
    (st.g_call s).client_tid

/-- One turn of the inner loop of `AuIpcProcessGone`, for endpoint `i`. -/
def failServed (i : EpSlot) (st : State) (s : CallSlot) : State :=
  if (st.g_call s).state ≠ .free ∧ (st.g_call s).ep = i ∧
      (st.g_call s).ep_gen = (st.g_ep i).gen ∧
      ((st.g_call s).state = .queued ∨ (st.g_call s).state = .serving) then
    callFail st s ipcEDead
  else st

/-- The endpoint is in use and belongs to the process. -/
def ownedBy (proc : AuProcess) (e : Endpoint) : Prop := e.used = true ∧ e.owner = proc.ptr

instance (proc : AuProcess) (e : Endpoint) : Decidable (ownedBy proc e) :=
  inferInstanceAs (Decidable (_ ∧ _))

/-- One turn of its first loop. -/
def removeEndpoint (proc : AuProcess) (st : State) (i : EpSlot) : State :=
  if ownedBy proc (st.g_ep i) then
    let st' := run (failServed i) st (List.finRange 32)
    { st'.setEp i { gen := st'.g_gen_counter } with g_gen_counter := st'.g_gen_counter + 1 }
  else st

/-- One turn of its second loop. -/
def cancelCall (proc : AuProcess) (st : State) (s : CallSlot) : State :=
  if (st.g_call s).state = .free ∨ (st.g_call s).client_pid ≠ proc.proc_id then st
  else if (st.g_call s).state = .queued ∨ (st.g_call s).state = .serving then
    st.setCall s { st.g_call s with state := .abandoned }
  else callFree st s

def auIpcProcessGone (st : State) (proc : AuProcess) : State :=
  run (cancelCall proc) (run (removeEndpoint proc) st (List.finRange 16)) (List.finRange 32)

/-- The owner of an endpoint as `ipc_prune_dead` finds it. -/
def ownerOf (e : Endpoint) : AuProcess := { ptr := e.owner, proc_id := e.owner_pid }

/-- One turn of the loop of `ipc_prune_dead`. -/
def pruneOne (st : State) (i : EpSlot) : State :=
  if (st.g_ep i).used ∧ st.died (st.g_ep i).owner then auIpcProcessGone st (ownerOf (st.g_ep i))
  else st

def ipcPruneDead (st : State) : State := run pruneOne st (List.finRange 16)

/-- A user buffer that is read: its address and the bytes found there. -/
structure UserBuf where
  addr : UInt64
  bytes : List UInt8
  deriving DecidableEq, Repr

def UserBuf.ok (b : UserBuf) : Bool :=
  b.bytes.isEmpty || ipcUserPtr b.addr (UInt64.ofNat b.bytes.length)

/-- A user buffer that is written: its address and capacity. -/
structure UserOut where
  addr : UInt64
  cap : ℕ
  deriving DecidableEq, Repr

def UserOut.ok (b : UserOut) : Bool := b.cap == 0 || ipcUserPtr b.addr (UInt64.ofNat b.cap)

structure IpcCreate where
  at_ : UInt64
  name : List UInt8
  acl : ℕ
  deriving DecidableEq, Repr

structure IpcConnect where
  at_ : UInt64
  name : List UInt8
  deriving DecidableEq, Repr

structure IpcHandle where
  at_ : UInt64
  handle : Word
  deriving DecidableEq, Repr

structure IpcCall where
  at_ : UInt64
  handle : Word
  timeout_ms : ℕ
  req : UserBuf
  deriving DecidableEq, Repr

structure IpcFetch where
  at_ : UInt64
  call_id : Word
  resp : UserOut
  deriving DecidableEq, Repr

structure IpcWait where
  at_ : UInt64
  handle : Word
  timeout_ms : ℕ
  deriving DecidableEq, Repr

structure IpcRecv where
  at_ : UInt64
  handle : Word
  buf : UserOut
  deriving DecidableEq, Repr

structure IpcReply where
  at_ : UInt64
  handle : Word
  call_id : Word
  resp : UserBuf
  server_status : ℤ
  deriving DecidableEq, Repr

/-- The C string in a name field whose last byte the kernel has set to zero. -/
def cstr (name : List UInt8) : List UInt8 := (name.take (ipcNameMax - 1)).takeWhile (· ≠ 0)

def clampMs (ms : ℕ) : ℕ := if ms < 1 then 1 else if ms > 5000 then 5000 else ms

def auHwdevCallerAllowed (st : State) (proc : AuProcess) : Bool :=
  proc.gid == st.daemonsGid || proc.sgid.contains st.daemonsGid

def aclAdmits (st : State) (e : Endpoint) (proc : AuProcess) : Bool :=
  if e.acl = ipcAclDaemons then auHwdevCallerAllowed st proc else true

/-- What a request hands back: the return code of the ioctl and the fields it fills. -/
structure Result where
  rc : ℤ
  status : ℤ := 0
  handle : Word := 0
  call_id : Word := -1
  data : List UInt8 := []
  len : ℕ := 0
  server_status : ℤ := 0
  sender_pid : ℤ := 0
  sender_uid : ℤ := 0
  sender_gid : ℤ := 0
  /-- milliseconds the caller is put to sleep for -/
  sleep : Option ℕ := none
  deriving DecidableEq, Repr

/-! ## The operations -/

/-- The first endpoint slot the test accepts, in table order. -/
def findEp (st : State) (p : Endpoint → Bool) : Option EpSlot :=
  (List.finRange 16).find? fun i => p (st.g_ep i)

/-- The first free call slot, in table order. -/
def freeSlot (st : State) : Option CallSlot :=
  (List.finRange 32).find? fun s => (st.g_call s).state = .free

def doCreate (st : State) (proc : AuProcess) (r : IpcCreate) : State × Result :=
  if ¬ ipcUserPtr r.at_ 32 then (st, { rc := ipcEInval })
  else if ¬ auHwdevCallerAllowed st proc then (st, { rc := ipcEPerm })
  else if cstr r.name = [] ∨ r.acl > ipcAclDaemons then (st, { rc := ipcEInval })
  else
    let st := ipcPruneDead st
    match findEp st fun e => e.used && e.name == cstr r.name with
    | some _ => (st, { rc := ipcEBusy })
    | none =>
      match findEp st fun e => !e.used with
      | none => (st, { rc := ipcEBusy })
      | some i =>
        let old := (st.g_ep i).gen
        let gen := if old ≠ 0 then old else st.g_gen_counter
        let counter := if old ≠ 0 then st.g_gen_counter else st.g_gen_counter + 1
        let e : Endpoint := { used := true, gen := gen, name := cstr r.name,
                              owner := proc.ptr, owner_pid := proc.proc_id, acl := r.acl }
        ({ st.setEp i e with g_gen_counter := counter },
          { rc := ipcOk, handle := makeId gen i })

def doConnect (st : State) (proc : AuProcess) (r : IpcConnect) : State × Result :=
  if ¬ ipcUserPtr r.at_ 32 then (st, { rc := ipcEInval })
  else
    let st := ipcPruneDead st
    match findEp st fun e => e.used && e.name == cstr r.name with
    | none => (st, { rc := ipcENoent })
    | some i =>
      if ¬ aclAdmits st (st.g_ep i) proc then (st, { rc := ipcEPerm })
      else (st, { rc := ipcOk, handle := makeId (st.g_ep i).gen i })

/-- Tears down every endpoint the caller owns, not only the one named. -/
def doDestroy (st : State) (proc : AuProcess) (r : IpcHandle) : State × Result :=
  if ¬ ipcUserPtr r.at_ 8 then (st, { rc := ipcEInval })
  else
    match epFromHandle st r.handle with
    | none => (st, { rc := ipcENoent })
    | some i =>
      if (st.g_ep i).owner ≠ proc.ptr then (st, { rc := ipcEPerm })
      else (auIpcProcessGone st proc, { rc := ipcOk })

/-- The part `do_call` and `AuIpcKCallBegin` share: fill the slot, append it to the
endpoint's queue and wake the waiting server. The slot's old generation plus one is
the new one. -/
def queueCall (st : State) (i : EpSlot) (s : CallSlot) (pid uid gid : ℤ) (tid : UInt64)
    (req : List UInt8) : State :=
  let e := st.g_ep i
  let c : Call := { state := .queued, gen := (st.g_call s).gen + 1, ep := i, ep_gen := e.gen,
                    client_pid := pid, client_uid := uid, client_gid := gid,
                    client_tid := tid, req := req }
  wakeTid ((st.setCall s c).setEp i { e with queue := e.queue ++ [s], waiter_tid := 0 })
    e.waiter_tid

/-- The tests of `do_call`, in order: where the call goes, or the status it fails with. -/
def callTarget (st : State) (proc : AuProcess) (handle : Word) : Except ℤ (EpSlot × CallSlot) :=
  match epFromHandle st handle with
  | none => .error ipcENoent
  | some i =>
    if (st.g_ep i).owner = proc.ptr then .error ipcEInval
    else if ¬ aclAdmits st (st.g_ep i) proc then .error ipcEPerm
    else if (st.g_ep i).queue.length ≥ epQueue then .error ipcEBusy
    else
      match freeSlot st with
      | none => .error ipcEBusy
      | some s => .ok (i, s)

/-- `mem` is whether `kmalloc` of the copy succeeds, `thr` the calling thread. -/
def doCall (st : State) (proc : AuProcess) (thr : Option UInt64) (mem : Bool) (r : IpcCall) :
    State × Result :=
  if ¬ ipcUserPtr r.at_ 32 then (st, { rc := ipcEInval })
  else if r.req.bytes.length > ipcMaxMsg ∨ ¬ r.req.ok then
    (st, { rc := ipcEInval, status := ipcEInval })
  else if ¬ mem then (st, { rc := ipcEBusy, status := ipcEInval })
  else
    let st := ipcPruneDead st
    match callTarget st proc r.handle with
    | .error e => (st, { rc := ipcOk, status := e })
    | .ok (i, s) =>
      (queueCall st i s proc.proc_id proc.uid proc.gid (thr.getD 0) r.req.bytes,
        { rc := ipcOk, status := ipcOk, call_id := makeId ((st.g_call s).gen + 1) s,
          sleep := thr.map fun _ => clampMs r.timeout_ms })

/-- What a fetch or a kernel poll takes from an answered or failed call. -/
def answer (c : Call) (cap : ℕ) : Result :=
  if c.state = .done then
    { rc := ipcOk, status := if c.resp.length > cap then ipcETooBig else ipcOk,
      data := c.resp.take cap, len := c.resp.length, server_status := c.server_status }
  else { rc := ipcOk, status := c.fail }

def doFetch (st : State) (proc : AuProcess) (r : IpcFetch) : State × Result :=
  if ¬ ipcUserPtr r.at_ 32 then (st, { rc := ipcEInval })
  else if ¬ r.resp.ok then (st, { rc := ipcEInval })
  else
    match callFromId st r.call_id with
    | none => (st, { rc := ipcOk, status := ipcENoent })
    | some s =>
      if (st.g_call s).client_pid ≠ proc.proc_id then (st, { rc := ipcOk, status := ipcENoent })
      else if (st.g_call s).state = .done ∨ (st.g_call s).state = .failed then
        (callFree st s, answer (st.g_call s) r.resp.cap)
      else
        -- no reply yet: give up on it, the server's answer will be dropped
        (st.setCall s { st.g_call s with state := .abandoned },
          { rc := ipcOk, status := ipcETimeout })

def doWait (st : State) (proc : AuProcess) (thr : Option UInt64) (r : IpcWait) : State × Result :=
  if ¬ ipcUserPtr r.at_ 16 then (st, { rc := ipcEInval })
  else
    match epFromHandle st r.handle with
    | none => (st, { rc := ipcOk, status := ipcENoent })
    | some i =>
      if (st.g_ep i).owner ≠ proc.ptr then (st, { rc := ipcOk, status := ipcEPerm })
      else
        match (st.g_ep i).queue, thr with
        | [], some tid =>
          (st.setEp i { st.g_ep i with waiter_tid := tid },
            { rc := ipcOk, status := ipcOk, sleep := some (clampMs r.timeout_ms) })
        | _, _ => (st, { rc := ipcOk, status := ipcOk })

/-- Take the head of the queue of endpoint `i` off it. -/
def popQueue (st : State) (i : EpSlot) : State :=
  st.setEp i { st.g_ep i with queue := (st.g_ep i).queue.tail }

/-- The loop of `do_recv` over the queue: abandoned calls are freed on the way. The last
component is the slot handed to the server, with the call found in it. -/
def recvLoop (cap : ℕ) (i : EpSlot) : ℕ → State → State × ℤ × Option (CallSlot × Call)
  | 0, st => (st, ipcEEmpty, none)
  | fuel + 1, st =>
    match (st.g_ep i).queue with
    | [] => (st, ipcEEmpty, none)
    | s :: _ =>
      let st := popQueue st i
      if (st.g_call s).state = .abandoned then recvLoop cap i fuel (callFree st s)
      else if (st.g_call s).req.length > cap then (callFail st s ipcETooBig, ipcETooBig, none)
      else
        (st.setCall s { st.g_call s with state := .serving }, ipcOk, some (s, st.g_call s))

def doRecv (st : State) (proc : AuProcess) (r : IpcRecv) : State × Result :=
  if ¬ ipcUserPtr r.at_ 40 then (st, { rc := ipcEInval })
  else if ¬ r.buf.ok then (st, { rc := ipcEInval })
  else
    match epFromHandle st r.handle with
    | none => (st, { rc := ipcOk, status := ipcENoent })
    | some i =>
      if (st.g_ep i).owner ≠ proc.ptr then (st, { rc := ipcOk, status := ipcEPerm })
      else
        match recvLoop r.buf.cap i (st.g_ep i).queue.length st with
        | (st', status, none) => (st', { rc := ipcOk, status := status })
        | (st', status, some (s, c)) =>
          (st', { rc := ipcOk, status := status, call_id := makeId c.gen s, data := c.req,
                  len := c.req.length, sender_pid := c.client_pid, sender_uid := c.client_uid,
                  sender_gid := c.client_gid })

def doReply (st : State) (proc : AuProcess) (mem : Bool) (r : IpcReply) : State × Result :=
  if ¬ ipcUserPtr r.at_ 32 then (st, { rc := ipcEInval })
  else if r.resp.bytes.length > ipcMaxMsg ∨ ¬ r.resp.ok then (st, { rc := ipcEInval })
  else if ¬ mem then (st, { rc := ipcEBusy })
  else
    match epFromHandle st r.handle with
    | none => (st, { rc := ipcENoent })
    | some i =>
      if (st.g_ep i).owner ≠ proc.ptr then (st, { rc := ipcEPerm })
      else
        match callFromId st r.call_id with
        | none => (st, { rc := ipcENoent })
        | some s =>
          if (st.g_call s).ep ≠ i ∨ (st.g_call s).ep_gen ≠ (st.g_ep i).gen ∨
              ((st.g_call s).state ≠ .serving ∧ (st.g_call s).state ≠ .abandoned) then
            (st, { rc := ipcENoent })
          else if (st.g_call s).state = .abandoned then
            -- nobody is waiting any more
            (callFree st s, { rc := ipcOk })
          else
            (wakeTid (st.setCall s { st.g_call s with
                state := .done, resp := r.resp.bytes, server_status := r.server_status })
              (st.g_call s).client_tid, { rc := ipcOk })

/-! ## The kernel-side client -/

def auIpcKCallBegin (st : State) (name : List UInt8) (pid uid gid : ℤ) (thr : Option UInt64)
    (mem : Bool) (req : List UInt8) : State × Result :=
  if req.length > ipcMaxMsg then (st, { rc := ipcEInval })
  else if ¬ mem then (st, { rc := ipcEBusy })
  else
    let st := ipcPruneDead st
    match findEp st fun e => e.used && e.name == name with
    | none => (st, { rc := ipcENoent })
    | some i =>
      if (st.g_ep i).queue.length ≥ epQueue then (st, { rc := ipcEBusy })
      else
        match freeSlot st with
        | none => (st, { rc := ipcEBusy })
        | some s =>
          (queueCall st i s pid uid gid (thr.getD 0) req,
            { rc := ipcOk, call_id := makeId ((st.g_call s).gen + 1) s })

/-- The status stands in `rc`. -/
def auIpcKCallPoll (st : State) (id : Word) (cap : ℕ) : State × Result :=
  match callFromId st id with
  | none => (st, { rc := ipcENoent })
  | some s =>
    if (st.g_call s).state = .done ∨ (st.g_call s).state = .failed then
      (callFree st s, { answer (st.g_call s) cap with rc := (answer (st.g_call s) cap).status })
    else (st, { rc := ipcETimeout })

def auIpcKCallAbandon (st : State) (id : Word) : State :=
  match callFromId st id with
  | none => st
  | some s =>
    if (st.g_call s).state = .queued ∨ (st.g_call s).state = .serving then
      st.setCall s { st.g_call s with state := .abandoned }
    else callFree st s

end Xeneva.Ipc

/-!
# The IPC as a state machine

The labels are the requests of any process, the kernel-side calls, the removal of a
process and the environment's changes of a process's state. The history of a run keeps
every request with its result; `made` and `handed` read off it which call slot a request
filled and which one it handed to a server.
-/

namespace Xeneva.Ipc
open Base

inductive Act
  | create (proc : AuProcess) (r : IpcCreate)
  | destroy (proc : AuProcess) (r : IpcHandle)
  | connect (proc : AuProcess) (r : IpcConnect)
  | call (proc : AuProcess) (thr : Option UInt64) (mem : Bool) (r : IpcCall)
  | fetch (proc : AuProcess) (r : IpcFetch)
  | wait (proc : AuProcess) (thr : Option UInt64) (r : IpcWait)
  | recv (proc : AuProcess) (r : IpcRecv)
  | reply (proc : AuProcess) (mem : Bool) (r : IpcReply)
  | kCallBegin (name : List UInt8) (pid uid gid : ℤ) (thr : Option UInt64) (mem : Bool)
      (req : List UInt8)
  | kCallPoll (id : Word) (cap : ℕ)
  | kCallAbandon (id : Word)
  | processGone (proc : AuProcess)
  | setDied (ptr : ℕ) (dead : Bool)
  deriving DecidableEq, Repr

def step (st : State) : Act → State × Result
  | .create proc r => doCreate st proc r
  | .destroy proc r => doDestroy st proc r
  | .connect proc r => doConnect st proc r
  | .call proc thr mem r => doCall st proc thr mem r
  | .fetch proc r => doFetch st proc r
  | .wait proc thr r => doWait st proc thr r
  | .recv proc r => doRecv st proc r
  | .reply proc mem r => doReply st proc mem r
  | .kCallBegin name pid uid gid thr mem req => auIpcKCallBegin st name pid uid gid thr mem req
  | .kCallPoll id cap => auIpcKCallPoll st id cap
  | .kCallAbandon id => (auIpcKCallAbandon st id, { rc := ipcOk })
  | .processGone proc => (auIpcProcessGone st proc, { rc := ipcOk })
  | .setDied ptr dead => ({ st with died := Function.update st.died ptr dead }, { rc := ipcOk })

/-- The request gets as far as `ipc_prune_dead`. -/
def prunes (st : State) : Act → Bool
  | .create proc r => ipcUserPtr r.at_ 32 && auHwdevCallerAllowed st proc &&
      cstr r.name != [] && decide (r.acl ≤ ipcAclDaemons)
  | .connect _ r => ipcUserPtr r.at_ 32
  | .call _ _ mem r => ipcUserPtr r.at_ 32 && decide (r.req.bytes.length ≤ ipcMaxMsg) &&
      r.req.ok && mem
  | .kCallBegin _ _ _ _ _ mem req => decide (req.length ≤ ipcMaxMsg) && mem
  | _ => false

abbrev IpcEvent := Event State Act Result

/-- A state with the history that led to it. -/
abbrev Recorded := State × List IpcEvent

/-- The recorded run from the empty tables. -/
def exec (daemonsGid : ℤ) (acts : List Act) : Recorded :=
  run (recorded step) (State.init daemonsGid, []) acts

/-- The call slot a call id names. -/
def slotOf (id : Word) : Option CallSlot :=
  if h : idSlot id < 32 then some ⟨idSlot id, h⟩ else none

theorem idSlot_eq (id : Word) : idSlot id = id.toNat % 2 ^ 8 := by
  rw [idSlot, BitVec.toNat_and]
  exact Nat.and_two_pow_sub_one_eq_mod id.toNat 8

theorem idSlot_makeId (gen : Word) (s : CallSlot) : idSlot (makeId gen s) = s := by
  have h1 : gen.toNat <<< 8 % 2 ^ 32 % 2 ^ 8 = 0 := by
    rw [Nat.shiftLeft_eq]
    omega
  have h2 : (s : ℕ) % 2 ^ 32 % 2 ^ 8 = s := by omega
  rw [idSlot_eq, makeId, BitVec.toNat_or, Nat.or_mod_two_pow, BitVec.toNat_shiftLeft,
    BitVec.toNat_ofNat, h1, h2, Nat.zero_or]

@[simp] theorem slotOf_makeId (gen : Word) (s : CallSlot) : slotOf (makeId gen s) = some s := by
  simp [slotOf, idSlot_makeId]

theorem makeId_one_sshiftRight (s : CallSlot) : (makeId 1 s).sshiftRight 8 = 1 := by
  revert s
  decide

/-- The slot the request filled with a new call. -/
def made (ev : IpcEvent) : Option CallSlot :=
  match ev.act with
  | .call .. => if ev.out.rc = ipcOk ∧ ev.out.status = ipcOk then slotOf ev.out.call_id else none
  | .kCallBegin .. => if ev.out.rc = ipcOk then slotOf ev.out.call_id else none
  | _ => none

/-- The endpoint a call request is addressed to. -/
def target (ev : IpcEvent) : Option EpSlot :=
  match ev.act with
  | .call _ _ _ r => epFromHandle (ipcPruneDead ev.pre) r.handle
  | .kCallBegin name .. => findEp (ipcPruneDead ev.pre) fun e => e.used && e.name == name
  | _ => none

/-- The slot the request handed to a server. -/
def handed (ev : IpcEvent) : Option CallSlot :=
  match ev.act with
  | .recv .. => if ev.out.rc = ipcOk ∧ ev.out.status = ipcOk then slotOf ev.out.call_id else none
  | _ => none

/-- The endpoint, with its generation, of the last call made in slot `s`, if that call has
not been handed to a server since. -/
def pendingAt (s : CallSlot) : List IpcEvent → Option (EpSlot × Word)
  | [] => none
  | ev :: h =>
    if made ev = some s then
      (target ev).map fun i => (i, ((ipcPruneDead ev.pre).g_ep i).gen)
    else if handed ev = some s then none
    else pendingAt s h

end Xeneva.Ipc
