import Xeneva.Base.Run

/-!
# Files served by a process

A read or write of such a file sends requests to the server, one page at most in each. A system
call that waits for an answer is executed again from its entry when its thread wakes up: the
requests it made already are matched, in order, against the history of the thread.
-/

namespace Xeneva.Srvfs
open Base

def SRV_TIMEOUT_MS : UInt64 := 3000
def MAX_HIST : ℕ := 8
def MAX_OPS : ℕ := 16
def HIST_STALE_US : UInt64 := 15 * 1000 * 1000
def FSSRV_MAX_DATA : ℕ := 4096
def PAGE_SIZE : ℕ := 4096
def FSSRV_OP_READ : UInt32 := 2
def FSSRV_OP_WRITE : UInt32 := 3
def FSSRV_OK : ℤ := 0

/-- The results of the IPC calls that are made or looked at here. -/
def IPC_OK : ℤ := 0
def IPC_E_BUSY : ℤ := -4
def IPC_E_TIMEOUT : ℤ := -5
def IPC_E_INVAL : ℤ := -2

structure FsReq where
  op : UInt32
  flags : UInt32 := 0
  offset : UInt32
  len : UInt32
  name : List UInt8

structure FsResp where
  status : ℤ
  size : UInt32
  uid : UInt32
  len : ℕ

def noResp : FsResp := ⟨0, 0, 0, 0⟩

inductive OpState
  | wait
  | done
deriving DecidableEq

/-- An operation of a system call; `data` is what a read brought. -/
structure Op where
  state : OpState
  sig : UInt64
  call_id : ℤ := 0
  rc : ℤ := 0
  pos_before : UInt32
  deadline_us : UInt64 := 0
  resp : FsResp := noResp
  data : List UInt8 := []

/-- `ops` are the operations recorded in the system call, and `pass` counts those seen in the
current execution. -/
structure Hist where
  born_us : UInt64
  ops : List Op := []
  pass : ℕ := 0

/-- The used slots of `g_hist`, by thread id. -/
structure HistTable where
  tids : List ℕ := []
  hist : ℕ → Hist

def HistTable.set (T : HistTable) (tid : ℕ) (h : Hist) : HistTable :=
  { T with hist := Function.update T.hist tid h }

def histDrop (T : HistTable) (tid : ℕ) : HistTable := { T with tids := T.tids.filter (· ≠ tid) }

/-- A history that is too old: its thread is taken for dead. -/
def stale (now : UInt64) (h : Hist) : Bool := now - h.born_us > HIST_STALE_US

/-- The history of the thread, a new one if need be; false where the table is full. -/
def histGet (T : HistTable) (tid : ℕ) (now : UInt64) : HistTable × Bool :=
  if tid ∈ T.tids then (T, true)
  else
    let T := { T with tids := T.tids.filter fun t => !stale now (T.hist t) }
    if T.tids.length < MAX_HIST then
      ({ T with tids := tid :: T.tids }.set tid { born_us := now }, true)
    else (T, false)

def syscallEnter (T : HistTable) (tid : ℕ) : HistTable :=
  if tid ∈ T.tids then
    let h := T.hist tid
    T.set tid { h with pass := 0 }
  else T

def syscallExit (T : HistTable) (tid : ℕ) : HistTable :=
  if tid ∈ T.tids then histDrop T tid else T

/-- The offset is not part of it. -/
def sigOf (op flags len : UInt32) (name : List UInt8) : UInt64 :=
  let h : UInt64 := 1469598103934665603 ^^^ op.toUInt64
  let h := (h * 1099511628211) ^^^ flags.toUInt64
  let h := (h * 1099511628211) ^^^ len.toUInt64
  name.foldl (fun h c => (h * 1099511628211) ^^^ c.toUInt64) h

/-- What a poll finds: nothing yet, an answer (with a response, unless it is too short), or
that the call failed. -/
inductive Poll
  | timeout
  | answer (resp : Option (FsResp × List UInt8))
  | failed (rc : ℤ)

/-- What the kernel around an operation does: the time, which allocations succeed, and the
results of the IPC calls. -/
structure Env where
  now : UInt64 := 0
  msgAlloc : Bool := true
  beginRc : ℤ := IPC_OK
  callId : ℤ := 0
  bufAlloc : Bool := true
  poll : Poll := .timeout
  dataAlloc : Bool := true

/-- What `srv_op` returns. -/
structure Answer where
  rc : ℤ
  resp : FsResp
  out : List UInt8

/-- The thread sleeps, and `sent` says that a request was queued; or an answer is returned. -/
inductive SrvResult
  | sleeps (T : HistTable) (pos : UInt32) (sent : Bool)
  | returns (T : HistTable) (pos : UInt32) (a : Answer)

/-- The answer of a finished operation, copied out where `outcap` says that there is room. -/
def answerOf (op : Op) (outcap : Option ℕ) : Answer :=
  if op.rc = IPC_OK then
    match outcap with
    | some cap =>
      if op.data = [] then { rc := op.rc, resp := { op.resp with len := 0 }, out := [] }
      else
        let n := min op.data.length cap
        { rc := op.rc, resp := { op.resp with len := n }, out := op.data.take n }
    | none => { rc := op.rc, resp := { op.resp with len := 0 }, out := [] }
  else { rc := op.rc, resp := noResp, out := [] }

/-- A waiting operation asks for its answer; `none` where it goes on waiting. -/
def pollOp (op : Op) (e : Env) : Option Op :=
  if !e.bufAlloc then some { op with state := .done, rc := IPC_E_BUSY }
  else
    match e.poll with
    | .timeout =>
      if e.now ≥ op.deadline_us then some { op with state := .done, rc := IPC_E_TIMEOUT } else none
    | .answer (some (resp, data)) =>
      let data := if e.dataAlloc then data.take resp.len else []
      some { op with state := .done, rc := IPC_OK, resp, data }
    | .answer none => some { op with state := .done, rc := IPC_E_INVAL }
    | .failed rc => some { op with state := .done, rc }

/-- A first execution: the request is sent, unless that fails at once. -/
def beginOp (sig : UInt64) (pos : UInt32) (e : Env) : Op :=
  let op : Op := { state := .done, sig, pos_before := pos }
  if !e.msgAlloc then { op with rc := IPC_E_BUSY }
  else if e.beginRc ≠ IPC_OK then { op with rc := e.beginRc }
  else { op with
    state := .wait, call_id := e.callId, deadline_us := e.now + SRV_TIMEOUT_MS * 1000 }

/-- Where the call is not repeating what was recorded, it starts over. -/
def matchOps (h : Hist) (idx : ℕ) (sig : UInt64) : List Op :=
  match h.ops[idx]? with
  | none => h.ops
  | some op => if op.sig ≠ sig then h.ops.take idx else h.ops

def srvOp (T : HistTable) (tid : ℕ) (pos : UInt32) (req : FsReq) (outcap : Option ℕ) (e : Env) :
    SrvResult :=
  let sig := sigOf req.op req.flags req.len req.name
  let (T, found) := histGet T tid e.now
  if !found then .returns T pos { rc := IPC_E_BUSY, resp := noResp, out := [] }
  else
    let h := T.hist tid
    let idx := h.pass
    let ops := matchOps h idx sig
    let h := { h with pass := idx + 1, ops }
    match ops[idx]? with
    | none =>
      if MAX_OPS ≤ ops.length then
        .returns (T.set tid h) pos { rc := IPC_E_BUSY, resp := noResp, out := [] }
      else
        let op := beginOp sig pos e
        let T := T.set tid { h with ops := ops ++ [op] }
        match op.state with
        | .wait => .sleeps T pos true
        | .done => .returns T pos (answerOf op outcap)
    | some op =>
      -- replay: undo the earlier pass's side effects
      let pos := op.pos_before
      match op.state with
      | .done => .returns (T.set tid h) pos (answerOf op outcap)
      | .wait =>
        match pollOp op e with
        | none => .sleeps (T.set tid h) pos false
        | some op =>
          .returns (T.set tid { h with ops := ops.set idx op }) pos (answerOf op outcap)

structure AuVFSNode where
  pos : UInt32 := 0
  size : UInt32 := 0
  eof : Bool := false
  filename : List UInt8 := []

def readReq (file : AuVFSNode) (length : ℕ) : FsReq where
  op := FSSRV_OP_READ
  offset := file.pos
  len := UInt32.ofNat length
  name := file.filename

def writeReq (file : AuVFSNode) (length : ℕ) : FsReq where
  op := FSSRV_OP_WRITE
  offset := file.pos
  len := UInt32.ofNat length
  name := file.filename

/-- The end of `srv_read`: the file and what is returned. -/
def srvReadEnd (file : AuVFSNode) (a : Answer) : AuVFSNode × ℕ :=
  if a.rc ≠ IPC_OK ∨ a.resp.status ≠ FSSRV_OK then (file, 0)
  else
    let pos := file.pos + UInt32.ofNat a.resp.len
    ({ file with pos, eof := if a.resp.len = 0 then true else file.eof }, a.resp.len)

def srvWriteEnd (file : AuVFSNode) (length : ℕ) (a : Answer) : AuVFSNode × ℕ :=
  if a.rc ≠ IPC_OK ∨ a.resp.status ≠ FSSRV_OK then (file, 0)
  else
    let pos := file.pos + UInt32.ofNat length
    ({ file with pos, size := if pos > file.size then pos else file.size }, length)

/-- A system call on an open server file that passed the checks at its entry. -/
structure Call where
  write : Bool
  file : ℕ
  length : ℕ

/-- The length of the next operation: the `WriteFile` loop goes by pages, and `srv_read` cuts what
it is asked for to one. -/
def Call.chunk (c : Call) (done : ℕ) : ℕ :=
  if c.write then min (c.length - done) PAGE_SIZE
  else min (c.length % 2 ^ 32) FSSRV_MAX_DATA

/-! ## Threads -/

/-- `sid` numbers the system calls, `done` and `k` are the bytes and the operations of the
current execution, and `start` is the file's position at the entry. -/
structure Thread where
  call : Option Call := none
  running : Bool := false
  sid : ℕ := 0
  done : ℕ := 0
  k : ℕ := 0
  start : UInt32 := 0
  dead : Bool := false

/-- A system call that returned: how far the file's position has moved, and its result. -/
structure Completed where
  moved : UInt32
  ret : ℕ

/-- `sent` and `answered` name an operation by its system call and its number in it. -/
structure Machine where
  table : HistTable := { hist := fun _ => { born_us := 0 } }
  files : ℕ → AuVFSNode := fun _ => {}
  thr : ℕ → Thread := fun _ => {}
  next : ℕ := 0
  sent : List (ℕ × ℕ) := []
  answered : List (ℕ × ℕ × Answer) := []
  completed : List Completed := []

def Machine.setThr (s : Machine) (t : ℕ) (x : Thread) : Machine :=
  { s with thr := Function.update s.thr t x }

def Machine.setFile (s : Machine) (f : ℕ) (file : AuVFSNode) : Machine :=
  { s with files := Function.update s.files f file }

/-- The system call returns, and its history is dropped. -/
def Machine.finish (s : Machine) (t : ℕ) (f : ℕ) (ret : ℕ) : Machine :=
  let x := s.thr t
  { s with
    table := syscallExit s.table t
    completed := { moved := (s.files f).pos - x.start, ret } :: s.completed }.setThr t
      { x with call := none, running := false }

/-- One turn of the system call's loop. -/
def opStep (s : Machine) (t : ℕ) (c : Call) (e : Env) : Machine :=
  let x := s.thr t
  let file := s.files c.file
  let length := c.chunk x.done
  let req := if c.write then writeReq file length else readReq file length
  let outcap := if c.write then none else some length
  match srvOp s.table t file.pos req outcap e with
  | .sleeps table pos sent =>
    { s with
      table
      sent := if sent then (x.sid, x.k) :: s.sent else s.sent
      files := Function.update s.files c.file { file with pos } }.setThr t
        { x with running := false }
  | .returns table pos a =>
    let file := { file with pos }
    let (file, w) := if c.write then srvWriteEnd file length a else srvReadEnd file a
    let s := { s with table, answered := (x.sid, x.k, a) :: s.answered }.setFile c.file file
    let done := x.done + w
    let s := s.setThr t { x with done, k := x.k + 1 }
    if c.write ∧ w ≠ 0 ∧ done < c.length then s else s.finish t c.file done

inductive Act
  | enter (t : ℕ) (c : Call)
  | op (t : ℕ) (e : Env)
  /-- A sleeping thread goes on with the call, from its entry. -/
  | restart (t : ℕ)
  | seek (f : ℕ) (pos : UInt32)
  | die (t : ℕ)

def step (s : Machine) : Act → Machine
  | .enter t c =>
    let x := s.thr t
    if x.dead ∨ x.call.isSome ∨ c.length = 0 then s
    else
      { s with table := syscallEnter s.table t, next := s.next + 1 }.setThr t
        { call := some c, running := true, sid := s.next, start := (s.files c.file).pos }
  | .op t e =>
    match (s.thr t).call with
    | none => s
    | some c => if (s.thr t).running then opStep s t c e else s
  | .restart t =>
    let x := s.thr t
    if x.call.isSome ∧ !x.running then
      { s with table := syscallEnter s.table t }.setThr t { x with running := true, done := 0, k := 0 }
    else s
  | .seek f pos =>
    let file := s.files f
    s.setFile f { file with pos }
  | .die t =>
    let x := s.thr t
    s.setThr t { x with call := none, running := false, dead := true }

/-- Every operation is sent at most once, its answer is always the same, and a position moves by
what is returned. -/
structure ExactlyOnce (s : Machine) : Prop where
  sent : s.sent.Nodup
  answered : ∀ sid k a b, (sid, k, a) ∈ s.answered → (sid, k, b) ∈ s.answered → a = b
  completed : ∀ c ∈ s.completed, c.moved = UInt32.ofNat c.ret

/-- No other call on the file is under way. -/
def Machine.Alone (s : Machine) (f : ℕ) : Prop :=
  ∀ t c, (s.thr t).call = some c → c.file ≠ f

/-- A file is left alone while a call on it is under way, and a thread that needs a history finds
no other call under way for longer than `HIST_STALE_US`. -/
def Kind (s : Machine) : Act → Prop
  | .enter _ c => s.Alone c.file
  | .seek f _ => s.Alone f
  | .op t e => t ∉ s.table.tids →
    ∀ t' ∈ s.table.tids, (s.thr t').call ≠ none → stale e.now (s.table.hist t') = false
  | _ => True

end Xeneva.Srvfs
