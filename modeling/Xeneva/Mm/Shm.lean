import Xeneva.Base.ExchangeSort

/-!
# Shared memory

Segments are named by a key and an id and own their frames; a process attaches a segment at an
address that the kernel finds in its shared-memory area.
-/

namespace Xeneva.Mm.Shm

open Xeneva.Base

def PAGE_SIZE : ℕ := 4096
def USER_SHARED_MEM_START : ℕ := 0x80000000

structure AuSHM where
  key : ℕ
  id : ℕ
  num_frames : ℕ
  link_count : ℕ

/-- A mapping; segments are numbered in the order in which they are allocated. -/
structure AuSHMMappings where
  start_addr : ℕ
  length : ℕ
  shm : ℕ

/-- The part of a process that concerns shared memory. -/
structure AuProcess where
  shmmaps : Option (List AuSHMMappings)
  shm_break : ℕ

/-- The kernel; `released` counts how often the frames of a segment were released. -/
structure State where
  shm_id : ℕ
  seg : ℕ → AuSHM
  next : ℕ
  shm_list : List ℕ
  proc : ℕ → AuProcess
  released : ℕ → ℕ

def auGetSHMSeg (s : State) (key : ℕ) : Option ℕ :=
  s.shm_list.find? fun k => (s.seg k).key = key

def auGetSHMByID (s : State) (id : ℕ) : Option ℕ :=
  s.shm_list.find? fun k => (s.seg k).id = id

/-- Which of its allocations a creation gets. -/
structure CreateMem where
  shm : Bool
  frames : Bool
  pages : Bool
  entry : Bool

def numFrames (sz : ℕ) : ℕ := sz / PAGE_SIZE + if sz % PAGE_SIZE ≠ 0 then 1 else 0

/-- The id of the segment with this key, which is made if there is none, or -1. The frame
array is allocated with a 32-bit size, and nothing is allocated for size 0. -/
def auCreateSHM (s : State) (key sz : ℕ) (mem : CreateMem) : State × ℤ :=
  match auGetSHMSeg s key with
  | some k => (s, (s.seg k).id)
  | none =>
    if !mem.shm then (s, -1)
    else
      let shm : AuSHM := ⟨key, s.shm_id, numFrames sz, 0⟩
      let s := { s with shm_id := (s.shm_id + 1) % 2 ^ 16 }
      if !mem.frames ∨ 8 * shm.num_frames % 2 ^ 32 = 0 then (s, -1)
      else if !mem.pages then (s, -1)
      else ({ s with
        seg := Function.update s.seg s.next shm
        next := s.next + 1
        shm_list := s.shm_list ++ if mem.entry then [s.next] else [] }, shm.id)

/-- A creation finds its segment, fails, or adds a segment. -/
theorem auCreateSHM_cases (s : State) (key sz : ℕ) (mem : CreateMem) :
    (∃ k, auGetSHMSeg s key = some k ∧ auCreateSHM s key sz mem = (s, ((s.seg k).id : ℤ))) ∨
    (∃ id, auCreateSHM s key sz mem = ({ s with shm_id := id }, -1)) ∨
    (auGetSHMSeg s key = none ∧ (mem.shm ∧ mem.frames ∧ mem.pages) ∧ 0 < numFrames sz ∧
      auCreateSHM s key sz mem = ({ s with
        shm_id := (s.shm_id + 1) % 2 ^ 16
        seg := Function.update s.seg s.next ⟨key, s.shm_id, numFrames sz, 0⟩
        next := s.next + 1
        shm_list := s.shm_list ++ if mem.entry then [s.next] else [] }, (s.shm_id : ℤ))) := by
  unfold auCreateSHM
  split
  case h_1 k hk => exact Or.inl ⟨k, hk, rfl⟩
  case h_2 hk =>
    right
    simp only
    split
    · exact Or.inl ⟨s.shm_id, rfl⟩
    split
    · exact Or.inl ⟨_, rfl⟩
    case isFalse hshm hframes =>
      split
      · exact Or.inl ⟨_, rfl⟩
      case isFalse hpages =>
        obtain ⟨hf, hsz⟩ := not_or.mp hframes
        refine Or.inr ⟨hk, ⟨by simpa using hshm, by simpa using hf, by simpa using hpages⟩, ?_, rfl⟩
        apply Nat.pos_of_ne_zero
        intro h0
        apply hsz
        simp only [h0, Nat.mul_zero, Nat.zero_mod]

/-- The record of a freed segment is left as it was. -/
def auSHMRelease (s : State) (k : ℕ) : State :=
  let shm : AuSHM := { s.seg k with link_count := (s.seg k).link_count - 1 }
  let s := { s with seg := Function.update s.seg k shm }
  if shm.link_count ≠ 0 then s
  else { s with
    released := Function.update s.released k (s.released k + 1)
    shm_list := s.shm_list.erase k }

def auSHMRetain (s : State) (k : ℕ) : State :=
  let shm : AuSHM := { s.seg k with link_count := ((s.seg k).link_count + 1) % 2 ^ 16 }
  { s with seg := Function.update s.seg k shm }

def auSHMProcOrderList (maps : List AuSHMMappings) : List AuSHMMappings :=
  exchangeSort AuSHMMappings.start_addr maps

/-- The first gap of the length that lies before a mapping. -/
def findGap (length : ℕ) : ℕ → List AuSHMMappings → Option ℕ
  | _, [] => none
  | last_addr, mapping :: rest =>
    if last_addr < mapping.start_addr ∧ length ≤ mapping.start_addr - last_addr then some last_addr
    else findGap length ((mapping.start_addr + mapping.length) % 2 ^ 64) rest

/-- An address, and the break after the call. -/
def auSHMFindAddress (maps : List AuSHMMappings) (shm_break length : ℕ) : ℕ × ℕ :=
  match findGap length USER_SHARED_MEM_START maps with
  | some start => (start, shm_break)
  | none =>
    if maps = [] ∧ USER_SHARED_MEM_START < shm_break ∧
        length ≤ shm_break - USER_SHARED_MEM_START then
      (USER_SHARED_MEM_START, shm_break)
    else (shm_break, (shm_break + length) % 2 ^ 64)

/-- Which of its allocations an attachment gets. -/
structure ObtainMem where
  mapping : Bool
  entry : Bool

def setProc (s : State) (p : ℕ) (proc : AuProcess) : State :=
  { s with proc := Function.update s.proc p proc }

/-- The address of the segment with this id, or 0. A process that has exited does not call. -/
def auSHMObtainMem (s : State) (p id : ℕ) (mem : ObtainMem) : State × ℕ :=
  match (s.proc p).shmmaps with
  | none => (s, 0)
  | some maps => match auGetSHMByID s id with
    | none => (s, 0)
    | some k =>
      if !mem.mapping then (s, 0)
      else
        let length := (s.seg k).num_frames * PAGE_SIZE % 2 ^ 64
        let found := auSHMFindAddress maps (s.proc p).shm_break length
        let mapping : AuSHMMappings := ⟨found.1, length, k⟩
        let maps := maps ++ if mem.entry then [mapping] else []
        (setProc (auSHMRetain s k) p ⟨some (auSHMProcOrderList maps), found.2⟩, found.1)

def setMaps (s : State) (p : ℕ) (maps : Option (List AuSHMMappings)) : State :=
  setProc s p ⟨maps, (s.proc p).shm_break⟩

/-- The first mapping of the segment with this key is taken away. -/
def auSHMUnmap (s : State) (key p : ℕ) : State :=
  match (s.proc p).shmmaps with
  | none => s
  | some maps => match auGetSHMSeg s key with
    | none => s
    | some k => match maps.find? fun m => m.shm = k with
      | none => s
      | some mapping =>
        auSHMRelease (setMaps s p (some (maps.eraseP fun m => m.shm = k))) mapping.shm

/-- Mappings are taken from the head of the list until there is none. -/
def unmapLoop (p : ℕ) : List AuSHMMappings → State → State
  | [], s => s
  | mapping :: maps, s => unmapLoop p maps (auSHMRelease (setMaps s p (some maps)) mapping.shm)

def auSHMUnmapAll (s : State) (p : ℕ) : State :=
  match (s.proc p).shmmaps with
  | none => s
  | some maps => setMaps (unmapLoop p maps s) p none

inductive ShmOp
  | create (key : ℕ) (sz : ℕ) (mem : CreateMem)
  | obtain (p id : ℕ) (mem : ObtainMem)
  | unmap (key p : ℕ)
  | exit (p : ℕ)

def shmStep (s : State) : ShmOp → State
  | .create key sz mem => (auCreateSHM s key sz mem).1
  | .obtain p id mem => (auSHMObtainMem s p id mem).1
  | .unmap key p => auSHMUnmap s key p
  | .exit p => auSHMUnmapAll s p

def bootShm : State where
  shm_id := 1
  seg _ := ⟨0, 0, 0, 0⟩
  next := 0
  shm_list := []
  proc _ := ⟨some [], USER_SHARED_MEM_START⟩
  released _ := 0

end Xeneva.Mm.Shm
