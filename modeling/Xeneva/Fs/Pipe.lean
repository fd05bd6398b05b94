import Xeneva.Base.Run
import Xeneva.Base.Ring

/-!
# The pipe

`AuPipeRead` and `AuPipeWrite` loop inside the kernel. A call is its arguments and how far it
has come, and the calls of several threads interleave by turns of these loops: the tests and at
most one byte.
-/

namespace Xeneva.Fs.Pipe
open Base

structure AuPipe where
  buffer : ℕ → UInt8
  size : ℕ
  read_ptr : ℕ
  write_ptr : ℕ

/-- The pipe that `AuCreatePipe` makes; it refuses a size of zero. -/
def auCreatePipe (buffer : ℕ → UInt8) (sz : ℕ) : Option AuPipe :=
  if sz = 0 then none else some { buffer, size := sz, read_ptr := 0, write_ptr := 0 }

def auPipeUnread (pipe : AuPipe) : ℕ :=
  if pipe.read_ptr = pipe.write_ptr then 0
  else if pipe.read_ptr > pipe.write_ptr then (pipe.size - pipe.read_ptr) + pipe.write_ptr
  else pipe.write_ptr - pipe.read_ptr

def auPipeGetAvailableBytes (pipe : AuPipe) : ℕ :=
  if pipe.read_ptr = pipe.write_ptr then pipe.size - 1
  else if pipe.read_ptr > pipe.write_ptr then pipe.read_ptr - pipe.write_ptr - 1
  else (pipe.size - pipe.write_ptr) + pipe.read_ptr - 1

def auPipeIncrementRead (pipe : AuPipe) : AuPipe :=
  { pipe with read_ptr := if pipe.read_ptr + 1 = pipe.size then 0 else pipe.read_ptr + 1 }

def auPipeIncrementWrite (pipe : AuPipe) : AuPipe :=
  { pipe with write_ptr := if pipe.write_ptr + 1 = pipe.size then 0 else pipe.write_ptr + 1 }

/-- A thread inside `AuPipeWrite`: `copying` tells whether it is in the inner loop. -/
structure WriteCall where
  buffer : List UInt8
  written : ℕ
  copying : Bool

/-- A thread inside `AuPipeRead`. -/
structure ReadCall where
  length : ℕ
  collected : List UInt8
  copying : Bool

/-- The byte that one turn of the inner loop of `AuPipeWrite` copies, if its test passes. -/
def WriteCall.next (call : WriteCall) (pipe : AuPipe) : Option UInt8 :=
  if auPipeGetAvailableBytes pipe > 0 then call.buffer[call.written]? else none

/-- A turn of `AuPipeWrite`: of its inner loop, or of its outer loop and, when that test passes,
the first turn of the inner one. -/
def auPipeWrite (pipe : AuPipe) (call : WriteCall) : AuPipe × Option WriteCall :=
  if call.copying ∨
      call.written < call.buffer.length ∧ auPipeGetAvailableBytes pipe > call.buffer.length then
    match call.next pipe with
    | some b =>
      (auPipeIncrementWrite
        { pipe with buffer := fun i => if i = pipe.write_ptr then b else pipe.buffer i },
        some { call with written := call.written + 1, copying := true })
    | none => (pipe, some { call with copying := false })
  else if call.written < call.buffer.length then (pipe, some call)
  else (pipe, none)

/-- A turn of `AuPipeRead`. -/
def auPipeRead (pipe : AuPipe) (call : ReadCall) : AuPipe × Option ReadCall :=
  if call.copying ∨ call.collected.length = 0 ∧ auPipeUnread pipe > 0 then
    if auPipeUnread pipe > 0 ∧ call.collected.length < call.length then
      (auPipeIncrementRead pipe,
        some { call with collected := call.collected ++ [pipe.buffer pipe.read_ptr], copying := true })
    else (pipe, some { call with copying := false })
  else (pipe, none)

inductive Call where
  | write (call : WriteCall)
  | read (call : ReadCall)

inductive PipeOp where
  | write (t : ℕ) (buffer : List UInt8)
  | read (t : ℕ) (length : ℕ)
  | turn (t : ℕ)

/-- `sent` and `got` are the bytes copied in and out so far, each with the thread that did;
`wrote` and `returned` are what the finished calls of a thread were given and handed back. -/
structure PipeState where
  pipe : AuPipe
  calls : ℕ → Option Call
  sent : List (ℕ × UInt8)
  got : List (ℕ × UInt8)
  wrote : ℕ → List UInt8
  returned : ℕ → List UInt8

variable {s : PipeState} {pipe : AuPipe} {t : ℕ}

def PipeState.setCall (s : PipeState) (t : ℕ) (c : Option Call) : PipeState :=
  { s with calls := fun u => if u = t then c else s.calls u }

/-- The bytes in `l` that are the doing of `t`. -/
def own (t : ℕ) (l : List (ℕ × UInt8)) : List UInt8 :=
  (l.filter fun p => p.1 = t).map Prod.snd

def writeTurn (s : PipeState) (t : ℕ) (call : WriteCall) : PipeState :=
  match auPipeWrite s.pipe call with
  | (pipe, some call') =>
    { s.setCall t (some (.write call')) with
      pipe
      sent := s.sent ++ ((call.buffer.drop call.written).take (call'.written - call.written)).map
        fun b => (t, b) }
  | (pipe, none) =>
    { s.setCall t none with
      pipe
      wrote := fun u => if u = t then s.wrote t ++ call.buffer else s.wrote u }

def readTurn (s : PipeState) (t : ℕ) (call : ReadCall) : PipeState :=
  match auPipeRead s.pipe call with
  | (pipe, some call') =>
    { s.setCall t (some (.read call')) with
      pipe
      got := s.got ++ (call'.collected.drop call.collected.length).map fun b => (t, b) }
  | (pipe, none) =>
    { s.setCall t none with
      pipe
      returned := fun u => if u = t then s.returned t ++ call.collected else s.returned u }

/-- A thread is in one call at a time. -/
def step (s : PipeState) : PipeOp → PipeState
  | .write t buffer =>
    if (s.calls t).isSome then s else s.setCall t (some (.write ⟨buffer, 0, false⟩))
  | .read t length =>
    if (s.calls t).isSome then s else s.setCall t (some (.read ⟨length, [], false⟩))
  | .turn t =>
    match s.calls t with
    | some (.write call) => writeTurn s t call
    | some (.read call) => readTurn s t call
    | none => s

def boot (pipe : AuPipe) : PipeState :=
  { pipe, calls := fun _ => none, sent := [], got := [], wrote := fun _ => [],
    returned := fun _ => [] }

/-- The three things a turn of `AuPipeWrite` can do. -/
theorem writeTurn_cases (s : PipeState) (t : ℕ) (call : WriteCall) :
    (∃ b, call.buffer[call.written]? = some b ∧ 0 < auPipeGetAvailableBytes s.pipe ∧
      (call.copying = true ∨ call.buffer.length < auPipeGetAvailableBytes s.pipe) ∧
      writeTurn s t call =
        { s.setCall t (some (.write { call with written := call.written + 1, copying := true })) with
          pipe := auPipeIncrementWrite { s.pipe with
            buffer := fun i => if i = s.pipe.write_ptr then b else s.pipe.buffer i }
          sent := s.sent ++ [(t, b)] }) ∨
    ((0 < auPipeGetAvailableBytes s.pipe → call.written < call.buffer.length →
        call.copying = false ∧ auPipeGetAvailableBytes s.pipe ≤ call.buffer.length) ∧
      (call.copying = true ∨ call.written < call.buffer.length) ∧
      writeTurn s t call = s.setCall t (some (.write { call with copying := false }))) ∨
    (call.copying = false ∧ call.buffer.length ≤ call.written ∧
      writeTurn s t call = { s.setCall t none with
        wrote := fun u => if u = t then s.wrote t ++ call.buffer else s.wrote u }) := by
  by_cases hin : call.copying = true ∨
      call.written < call.buffer.length ∧ auPipeGetAvailableBytes s.pipe > call.buffer.length
  · cases hb : call.next s.pipe with
    | some b =>
      left
      have havail : 0 < auPipeGetAvailableBytes s.pipe := by
        by_contra hn
        rw [WriteCall.next, if_neg hn] at hb
        exact absurd hb nofun
      have hget : call.buffer[call.written]? = some b := by
        rwa [WriteCall.next, if_pos havail] at hb
      have hdrop : (call.buffer.drop call.written).take 1 = [b] := by
        rw [List.take_one, List.head?_drop, hget]
        rfl
      refine ⟨b, hget, havail, hin.imp_right And.right, ?_⟩
      unfold writeTurn auPipeWrite
      rw [if_pos hin, hb]
      simp only [Nat.add_sub_cancel_left, hdrop, List.map_cons, List.map_nil]
    | none =>
      right; left
      refine ⟨fun havail hlt => ?_, hin.imp_right And.left, ?_⟩
      · rw [WriteCall.next, if_pos havail, List.getElem?_eq_getElem hlt] at hb
        exact absurd hb nofun
      · unfold writeTurn auPipeWrite
        rw [if_pos hin, hb]
        simp [PipeState.setCall]
  · have hcopy : call.copying = false := by
      rw [← Bool.not_eq_true]
      exact fun h => hin (Or.inl h)
    by_cases hlt : call.written < call.buffer.length
    · right; left
      refine ⟨fun _ _ => ⟨hcopy, ?_⟩, Or.inr hlt, ?_⟩
      · by_contra hgt
        exact hin (Or.inr ⟨hlt, Nat.lt_of_not_le hgt⟩)
      · unfold writeTurn auPipeWrite
        rw [if_neg hin, if_pos hlt]
        simp [PipeState.setCall, ← hcopy]
    · right; right
      refine ⟨hcopy, Nat.le_of_not_lt hlt, ?_⟩
      unfold writeTurn auPipeWrite
      rw [if_neg hin, if_neg hlt]
      rfl

/-- The three things a turn of `AuPipeRead` can do. -/
theorem readTurn_cases (s : PipeState) (t : ℕ) (call : ReadCall) :
    (0 < auPipeUnread s.pipe ∧
      readTurn s t call =
        { s.setCall t (some (.read { call with
            collected := call.collected ++ [s.pipe.buffer s.pipe.read_ptr], copying := true })) with
          pipe := auPipeIncrementRead s.pipe
          got := s.got ++ [(t, s.pipe.buffer s.pipe.read_ptr)] }) ∨
    readTurn s t call = s.setCall t (some (.read { call with copying := false })) ∨
    readTurn s t call = { s.setCall t none with
      returned := fun u => if u = t then s.returned t ++ call.collected else s.returned u } := by
  unfold readTurn auPipeRead
  by_cases hin : call.copying = true ∨ call.collected.length = 0 ∧ auPipeUnread s.pipe > 0
  · rw [if_pos hin]
    by_cases hread : auPipeUnread s.pipe > 0 ∧ call.collected.length < call.length
    · rw [if_pos hread]
      left
      refine ⟨hread.1, ?_⟩
      simp
    · rw [if_neg hread]
      right; left
      simp [PipeState.setCall]
  · rw [if_neg hin]
    right; right
    rfl

def contents (pipe : AuPipe) : List UInt8 :=
  window pipe.buffer pipe.size pipe.read_ptr (auPipeUnread pipe)

structure WF (pipe : AuPipe) : Prop where
  read_lt : pipe.read_ptr < pipe.size
  write_lt : pipe.write_ptr < pipe.size

theorem WF.unread_add_available (h : WF pipe) :
    auPipeUnread pipe + auPipeGetAvailableBytes pipe + 1 = pipe.size := by
  have hr := h.read_lt
  have hw := h.write_lt
  unfold auPipeUnread auPipeGetAvailableBytes
  split_ifs <;> omega

theorem WF.write_place (h : WF pipe) :
    (pipe.read_ptr + auPipeUnread pipe) % pipe.size = pipe.write_ptr := by
  have hr := h.read_lt
  have hw := h.write_lt
  have hadd := h.unread_add_available
  rw [ring_place hr (by omega)]
  unfold auPipeUnread
  split_ifs <;> omega

theorem increment_eq_mod {size p : ℕ} (hp : p < size) :
    (if p + 1 = size then 0 else p + 1) = (p + 1) % size := by
  rw [ring_place hp (by omega)]
  split_ifs <;> omega

/-- The unread bytes of a pipe whose write pointer is `n` places ahead. -/
theorem unread_of_place {buffer : ℕ → UInt8} {size read n : ℕ} (hr : read < size)
    (hn : n < size) : auPipeUnread ⟨buffer, size, read, (read + n) % size⟩ = n := by
  unfold auPipeUnread
  dsimp only
  rw [ring_place hr (Nat.le_of_lt hn)]
  split_ifs <;> omega

/-- A byte copied in joins the end. -/
theorem WF.write_byte (h : WF pipe) (hpos : 0 < auPipeGetAvailableBytes pipe) (b : UInt8) :
    WF (auPipeIncrementWrite
      { pipe with buffer := fun i => if i = pipe.write_ptr then b else pipe.buffer i }) ∧
    contents (auPipeIncrementWrite
      { pipe with buffer := fun i => if i = pipe.write_ptr then b else pipe.buffer i }) =
      contents pipe ++ [b] := by
  have hadd := h.unread_add_available
  have hmem : (fun i => if i = pipe.write_ptr then b else pipe.buffer i) =
      fun i => if i = (pipe.read_ptr + auPipeUnread pipe) % pipe.size then b else pipe.buffer i := by
    rw [h.write_place]
  have hnext : (if pipe.write_ptr + 1 = pipe.size then 0 else pipe.write_ptr + 1) =
      (pipe.read_ptr + (auPipeUnread pipe + 1)) % pipe.size := by
    rw [increment_eq_mod h.write_lt, ← h.write_place, Nat.mod_add_mod, Nat.add_assoc]
  constructor
  · exact ⟨h.read_lt, by
      simp only [auPipeIncrementWrite, hnext]
      exact Nat.mod_lt _ (by omega)⟩
  · simp only [contents, auPipeIncrementWrite, hnext]
    rw [unread_of_place h.read_lt (by omega), hmem, window_add]
    congr 1
    · apply window_congr
      intro i hi
      rw [if_neg]
      -- the places read are not the one written
      rw [ring_place h.read_lt (by omega), ring_place h.read_lt (by omega)]
      split_ifs <;> omega
    · simp [window]

/-- A byte copied out is the first. -/
theorem WF.read_byte (h : WF pipe) (hpos : 0 < auPipeUnread pipe) :
    WF (auPipeIncrementRead pipe) ∧
      contents pipe = pipe.buffer pipe.read_ptr :: contents (auPipeIncrementRead pipe) := by
  have hadd := h.unread_add_available
  have hr := h.read_lt
  have hlt : (pipe.read_ptr + 1) % pipe.size < pipe.size := Nat.mod_lt _ (by omega)
  have hplace : pipe.write_ptr =
      ((pipe.read_ptr + 1) % pipe.size + (auPipeUnread pipe - 1)) % pipe.size := by
    rw [Nat.mod_add_mod, Nat.add_assoc, Nat.add_sub_cancel' hpos, h.write_place]
  constructor
  · exact ⟨by
      simp only [auPipeIncrementRead, increment_eq_mod hr]
      exact hlt, h.write_lt⟩
  · have hunread : auPipeUnread (auPipeIncrementRead pipe) = auPipeUnread pipe - 1 := by
      simp only [auPipeIncrementRead, increment_eq_mod hr]
      rw [hplace]
      exact unread_of_place hlt (by omega)
    have hn : auPipeUnread pipe = 1 + (auPipeUnread pipe - 1) := by omega
    unfold contents
    rw [hunread, hn, window_add, Nat.add_sub_cancel_left]
    simp [window, auPipeIncrementRead, increment_eq_mod hr, Nat.mod_eq_of_lt hr]

def PipeState.writing (s : PipeState) (t : ℕ) : List UInt8 :=
  match s.calls t with
  | some (.write call) => call.buffer.take call.written
  | _ => []

def PipeState.reading (s : PipeState) (t : ℕ) : List UInt8 :=
  match s.calls t with
  | some (.read call) => call.collected
  | _ => []

/-- What was read is what was written, in order, up to what is still in the pipe; what a thread
wrote and read is what its calls were given and handed back. -/
structure Fifo (s : PipeState) : Prop where
  order : s.got.map Prod.snd ++ contents s.pipe = s.sent.map Prod.snd
  sent : ∀ t, own t s.sent = s.wrote t ++ s.writing t
  got : ∀ t, own t s.got = s.returned t ++ s.reading t

end Xeneva.Fs.Pipe
