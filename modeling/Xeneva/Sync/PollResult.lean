import Xeneva.Fs.WriteFile
import Xeneva.Sync.Poll

/-!
# What a poll reports

A call of `AuPoll` as its caller sees it: the result, and the array of descriptors. The masks of
the files may differ from check to check.
-/

namespace Xeneva.Poll.Result

/-- An entry of the caller's array. -/
structure UserPollFd extends PollFd where
  revents : UInt16
deriving DecidableEq

/-- The memory from the process's table of files on: `none` is no file, `some none` a file
without a poll callback. -/
abbrev Table := ℕ → Option (Option UInt16)

/-- The file is looked up without a bound. -/
def auPollGetFile (files : Table) (fd : ℤ) : Option (Option UInt16) :=
  if fd = -1 then none else files fd.toNat

/-- One turn of the loop over the descriptors. -/
def pollCheck (files : Table) (f : PollFd) : UInt16 :=
  if f.fd < 0 then 0
  else
    let mask := match auPollGetFile files f.fd with
      | none => pollNval
      | some (some mask) => mask
      | some none => pollIn ||| pollOut
    mask &&& f.wanted

/-- The loop over the descriptors from number `i` on, `files` being what each of them meets. -/
def pollScan (files : ℕ → Table) : ℕ → List UserPollFd → ℕ → ℕ × List UserPollFd
  | _, [], ready => (ready, [])
  | i, f :: fs, ready =>
    let mask := pollCheck (files i) f.toPollFd
    let (ready, kfds) := pollScan files (i + 1) fs (if mask ≠ 0 then ready + 1 else ready)
    (ready, { f with revents := mask } :: kfds)

/-- The files at every check of every scan, and the time behind every scan. -/
structure Env where
  files : ℕ → ℕ → Table
  now : ℕ → UInt64

/-- Scan `k` and those behind it, `n` at most; `_kfds` is the kernel's copy of the array. -/
def pollLoop (E : Env) (timeout : ℤ) (deadline : UInt64) :
    ℕ → ℕ → ℕ → List UserPollFd → Option (ℕ × List UserPollFd)
  | 0, _, _, _ => none
  | n + 1, k, ready, _kfds =>
    let (ready, _kfds) := pollScan (E.files k) 0 _kfds ready
    if ready > 0 ∨ timeout = 0 ∨ (timeout > 0 ∧ E.now k ≥ deadline) then some (ready, _kfds)
    else pollLoop E timeout deadline n (k + 1) ready _kfds

/-- The caller's array: its address, its entries, and whether they can be read. -/
structure Caller where
  fds : UInt64
  array : List UserPollFd
  readable : Bool

structure Returned where
  ret : ℤ
  array : List UserPollFd

/-- `now` is the time of the call. The kernel's copy is freed, and the array is what it was. -/
def auPoll (E : Env) (c : Caller) (timeout : ℤ) (now : UInt64) (n : ℕ) : Option Returned :=
  let num_fd := c.array.length
  if c.fds = 0 then some ⟨-1, c.array⟩
  else if num_fd > pollMaxFdMonitor then some ⟨-1, c.array⟩
  else if !Fileserv.ubufValidate c.fds (UInt64.ofNat (8 * num_fd)) then some ⟨-1, c.array⟩
  else if !c.readable then some ⟨-1, c.array⟩
  else
    let deadline := if timeout > 0 then now + UInt64.ofInt timeout else 0
    (pollLoop E timeout deadline n 0 0 c.array).map fun (ready, _) => ⟨ready, c.array⟩

/-- The events that hold for a descriptor. -/
def Holding (files : Table) (f : PollFd) : UInt16 :=
  if f.fd < 0 then 0
  else if f.fd ≥ Cap.FILE_DESC_PER_PROCESS then pollNval
  else match files f.fd.toNat with
    | none => pollNval
    | some none => (pollIn ||| pollOut) &&& f.wanted
    | some (some mask) => mask &&& f.wanted

/-- The events of every descriptor at one scan. -/
def holding (files : ℕ → Table) (fds : List UserPollFd) : List UInt16 :=
  fds.mapIdx fun i f => Holding (files i) f.toPollFd

def ready (revents : List UInt16) : ℕ := revents.countP (· ≠ 0)

def Expired (E : Env) (timeout : ℤ) (deadline : UInt64) (k : ℕ) : Prop :=
  timeout = 0 ∨ timeout > 0 ∧ E.now k ≥ deadline

/-- The call ends with scan `k`: it is the first one that finds a descriptor ready or the time
over. -/
structure Ends (E : Env) (timeout : ℤ) (deadline : UInt64) (fds : List UserPollFd) (k : ℕ) :
    Prop where
  before : ∀ j < k, ready (holding (E.files j) fds) = 0 ∧ ¬Expired E timeout deadline j
  last : 0 < ready (holding (E.files k) fds) ∨ Expired E timeout deadline k

/-- The array has the events of every descriptor, and the result is their number. -/
def Reported (revents : List UInt16) (r : Returned) : Prop :=
  r.array.map UserPollFd.revents = revents ∧ r.ret = ready revents

variable {E : Env} {files : ℕ → Table} {f : PollFd} {fds kfds : List UserPollFd} {i k n : ℕ}
  {timeout : ℤ} {deadline : UInt64}

theorem nval_wanted (f : PollFd) : pollNval &&& f.wanted = pollNval := by
  unfold PollFd.wanted
  apply UInt16.toBitVec_inj.mp
  rw [UInt16.toBitVec_and, UInt16.toBitVec_or]
  apply BitVec.eq_of_getLsbD_eq
  intro i _
  rw [BitVec.getLsbD_and, BitVec.getLsbD_or, Bool.or_comm]
  cases pollNval.toBitVec.getLsbD i <;> rfl

/-- The check of a descriptor within the table. -/
theorem pollCheck_eq (files : Table) (hf : f.fd < Cap.FILE_DESC_PER_PROCESS) :
    pollCheck files f = Holding files f := by
  unfold pollCheck Holding
  by_cases hneg : f.fd < 0
  · rw [if_pos hneg, if_pos hneg]
  · rw [if_neg hneg, if_neg hneg, if_neg (by omega), auPollGetFile, if_neg (by omega)]
    cases files f.fd.toNat with
    | none => exact nval_wanted f
    | some file =>
      cases file with
      | none => rfl
      | some mask => rfl

theorem ready_cons (mask : UInt16) (revents : List UInt16) :
    ready (mask :: revents) = (if mask ≠ 0 then 1 else 0) + ready revents := by
  unfold ready
  rw [List.countP_cons, Nat.add_comm]
  congr 1
  by_cases h : mask = 0
  · rw [if_neg (by simpa using h), if_neg (by simpa using h)]
  · rw [if_pos (by simpa using h), if_pos h]

/-- A scan sets the events of every entry, and counts those that hold. -/
theorem pollScan_eq (files : ℕ → Table)
    (hfds : ∀ f ∈ fds, f.fd < Cap.FILE_DESC_PER_PROCESS) (i n : ℕ) :
    (pollScan files i fds n).1 = n + ready (holding (fun j => files (i + j)) fds) ∧
      (pollScan files i fds n).2.map UserPollFd.revents =
        holding (fun j => files (i + j)) fds ∧
      (pollScan files i fds n).2.map UserPollFd.toPollFd = fds.map UserPollFd.toPollFd := by
  induction fds generalizing i n with
  | nil => exact ⟨rfl, rfl, rfl⟩
  | cons f fs ih =>
    have hf := hfds f List.mem_cons_self
    have hshift : (fun j => files (i + 1 + j)) = fun j => files (i + (j + 1)) := by
      funext j
      congr 1
      omega
    obtain ⟨hready, hrev, hfd⟩ := ih (fun g hg => hfds g (List.mem_cons_of_mem f hg)) (i + 1)
      (if pollCheck (files i) f.toPollFd ≠ 0 then n + 1 else n)
    rw [hshift] at hready hrev
    have hcons : holding (fun j => files (i + j)) (f :: fs) =
        Holding (files i) f.toPollFd :: holding (fun j => files (i + (j + 1))) fs := by
      unfold holding
      rw [List.mapIdx_cons]
      rfl
    rw [hcons, ready_cons, ← pollCheck_eq _ hf]
    unfold pollScan
    dsimp only
    refine ⟨?_, ?_, ?_⟩
    · rw [hready]
      split_ifs <;> omega
    · rw [List.map_cons, hrev]
    · rw [List.map_cons, List.map_cons, hfd]

/-! ## A call -/

theorem holding_congr (h : kfds.map UserPollFd.toPollFd = fds.map UserPollFd.toPollFd) :
    holding files kfds = holding files fds := by
  apply List.ext_getElem?
  intro i
  have hi := congrArg (fun l => (l[i]?).map (Holding (files i))) h
  simp only [List.getElem?_map, Option.map_map] at hi
  unfold holding
  rw [List.getElem?_mapIdx, List.getElem?_mapIdx]
  exact hi

/-- The loop from a scan on that the call reaches. -/
theorem pollLoop_eq (hfds : ∀ f ∈ fds, f.fd < Cap.FILE_DESC_PER_PROCESS)
    (he : Ends E timeout deadline fds k) {j : ℕ} (hj : j ≤ k) (hn : k < j + n)
    (hk : kfds.map UserPollFd.toPollFd = fds.map UserPollFd.toPollFd) :
    ∃ _kfds, pollLoop E timeout deadline n j 0 kfds =
        some (ready (holding (E.files k) fds), _kfds) ∧
      _kfds.map UserPollFd.revents = holding (E.files k) fds := by
  induction n generalizing j kfds with
  | zero => omega
  | succ n ih =>
    have hkfds : ∀ f ∈ kfds, f.fd < Cap.FILE_DESC_PER_PROCESS := by
      intro f hf
      have hmem : f.toPollFd ∈ fds.map UserPollFd.toPollFd := hk ▸ List.mem_map_of_mem hf
      obtain ⟨g, hg, hgf⟩ := List.mem_map.mp hmem
      rw [← hgf]
      exact hfds g hg
    obtain ⟨hready, hrev, hfd⟩ := pollScan_eq (E.files j) hkfds 0 0
    simp only [Nat.zero_add] at hready hrev
    rw [holding_congr hk] at hready hrev
    unfold pollLoop
    dsimp only
    rw [hready]
    rcases Nat.lt_or_eq_of_le hj with hlt | rfl
    · obtain ⟨hzero, hlate⟩ := he.before j hlt
      unfold Expired at hlate
      rw [hzero, if_neg (by
        rw [not_or]
        exact ⟨Nat.lt_irrefl 0, hlate⟩)]
      exact ih hlt (by omega) (hfd.trans hk)
    · have hlast := he.last
      unfold Expired at hlast
      rw [if_pos hlast]
      exact ⟨_, rfl, hrev⟩

/-- The arguments of a call that is not refused. -/
structure Caller.Valid (c : Caller) : Prop where
  fds : c.fds ≠ 0
  num : c.array.length ≤ pollMaxFdMonitor
  range : Fileserv.ubufValidate c.fds (UInt64.ofNat (8 * c.array.length))
  readable : c.readable = true

/-- The time at which the caller wants to be woken. -/
def deadlineOf (timeout : ℤ) (now : UInt64) : UInt64 :=
  if timeout > 0 then now + UInt64.ofInt timeout else 0

/-- The result is the number of descriptors with events at the last scan. The caller's array has
these events exactly where it had them before the call. -/
theorem auPoll_reported (E : Env) (c : Caller) (timeout : ℤ) (now : UInt64) (k n : ℕ)
    (hc : c.Valid) (hfds : ∀ f ∈ c.array, f.fd < Cap.FILE_DESC_PER_PROCESS)
    (he : Ends E timeout (deadlineOf timeout now) c.array k) (hn : k < n) :
    ∃ r, auPoll E c timeout now n = some r ∧
      r.ret = ready (holding (E.files k) c.array) ∧
      (Reported (holding (E.files k) c.array) r ↔
        c.array.map UserPollFd.revents = holding (E.files k) c.array) := by
  obtain ⟨_kfds, hloop, -⟩ := pollLoop_eq hfds he (Nat.zero_le k) (by omega : k < 0 + n) rfl
  refine ⟨⟨ready (holding (E.files k) c.array), c.array⟩, ?_, rfl, ?_⟩
  · unfold auPoll
    dsimp only
    rw [if_neg hc.fds, if_neg (Nat.not_lt.mpr hc.num), hc.range, hc.readable, Bool.not_true,
      if_neg Bool.false_ne_true, if_neg Bool.false_ne_true]
    rw [deadlineOf] at hloop
    rw [hloop]
    rfl
  · exact ⟨fun h => h.1, fun h => ⟨h, rfl⟩⟩

/-- One regular file, and its events are in the array. -/
theorem auPoll_reported_regular : ∃ r,
    auPoll ⟨fun _ _ _ => some none, fun _ => 0⟩ ⟨0x20000, [⟨⟨3, pollIn⟩, pollIn⟩], true⟩ (-1) 0 1 =
      some r ∧ Reported [pollIn] r := by
  obtain ⟨r, hr, -, hiff⟩ := auPoll_reported ⟨fun _ _ _ => some none, fun _ => 0⟩
    ⟨0x20000, [⟨⟨3, pollIn⟩, pollIn⟩], true⟩ (-1) 0 0 1 ⟨by decide, by decide, by decide, rfl⟩
    (by decide) ⟨nofun, .inl (by decide)⟩ (by decide)
  exact ⟨r, hr, hiff.mpr (by decide)⟩

/-- The file is ready and counted, and its entry stays as it was. -/
theorem not_auPoll_reported : ¬∀ (E : Env) (c : Caller) (timeout : ℤ) (now : UInt64) (k n : ℕ),
    c.Valid → (∀ f ∈ c.array, f.fd < Cap.FILE_DESC_PER_PROCESS) →
      Ends E timeout (deadlineOf timeout now) c.array k → k < n →
        ∃ r, auPoll E c timeout now n = some r ∧ Reported (holding (E.files k) c.array) r := by
  intro h
  obtain ⟨r, hr, hrep⟩ := h ⟨fun _ _ _ => some none, fun _ => 0⟩
    ⟨0x20000, [⟨⟨3, pollIn⟩, 0⟩], true⟩ (-1) 0 0 1 ⟨by decide, by decide, by decide, rfl⟩
    (by decide) ⟨nofun, .inl (by decide)⟩ (by decide)
  have hret : auPoll ⟨fun _ _ _ => some none, fun _ => 0⟩ ⟨0x20000, [⟨⟨3, pollIn⟩, 0⟩], true⟩ (-1) 0
      1 = some ⟨1, [⟨⟨3, pollIn⟩, 0⟩]⟩ := rfl
  obtain rfl := Option.some.inj (hret.symm.trans hr)
  have harray := hrep.1
  revert harray
  decide

end Xeneva.Poll.Result
