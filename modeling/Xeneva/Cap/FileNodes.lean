import Xeneva.Base.Run
import Xeneva.Cap.Capability

/-!
# Nodes and their descriptors

Device nodes live for ever and their close hook should run when the last descriptor goes; the
nodes of files and sockets should be freed then.
-/

namespace Xeneva.Cap

open Xeneva.Base

/-- What processes do with descriptors. `copyCount` is the count that the file system gives a
fresh node, and `driver` tells whether the driver of a device can be kept. -/
inductive FileOp
  | openDevice (p n : ℕ) (mode : BitVec 32) (driver : Bool)
  | openFresh (p : ℕ) (copyCount : ℕ) (mode : BitVec 32)
  | socket (p : ℕ)
  | pass (p : ℕ) (fileno dest_fdidx : Fin FILE_DESC_PER_PROCESS) (proc_id : ℕ)
  | dup (p : ℕ) (oldfd newfd : ℤ)
  | close (p : ℕ) (fd : ℤ)
  | exit (p : ℕ)

/-- A node that the kernel allocates. -/
def newNode (s : State) (file : AuVFSNode) : State :=
  { s with node := Function.update s.node s.nextNode file, nextNode := s.nextNode + 1 }

def freshFile (copyCount : ℕ) : AuVFSNode := ⟨FS_FLAG_GENERAL, copyCount, 0, 0, false⟩

def socketNode : AuVFSNode := ⟨FS_FLAG_SOCKET, 0, 0, 0, true⟩

/-- The descriptor comes before the node. -/
def createSocket (s : State) (p : ℕ) : State × ℤ :=
  match auProcessGetFileDesc (s.fds p) with
  | none => (s, -1)
  | some fd => ({ newNode s socketNode with fds := setSlot s.fds p fd s.nextNode }, fd)

def fileStep (s : State) : FileOp → State
  | .openDevice p n mode driver =>
    if 0 < n ∧ n < s.nextNode ∧ (s.node n).flags = FS_FLAG_DEVICE then
      (openFile s p n mode driver).1
    else s
  | .openFresh p copyCount mode =>
    (openFile (newNode s (freshFile copyCount)) p s.nextNode mode true).1
  | .socket p => (createSocket s p).1
  | .pass p fileno dest_fdidx proc_id => (setFileToProcess s p fileno dest_fdidx proc_id).1
  | .dup p oldfd newfd => (capDup s p oldfd newfd).1
  | .close p fd => (closeFile s p fd).1
  | .exit p => auProcessCloseFiles s p

/-- Some descriptor of some process refers to the node. -/
def Referred (s : State) (n : ℕ) : Prop := ∃ p i, s.fds p i = n

def AuVFSNode.isDevice (file : AuVFSNode) : Prop := file.flags = FS_FLAG_DEVICE
def AuVFSNode.isGeneral (file : AuVFSNode) : Prop := file.flags = FS_FLAG_GENERAL
def AuVFSNode.isSocket (file : AuVFSNode) : Prop := file.flags = FS_FLAG_SOCKET

instance (file : AuVFSNode) : Decidable file.isDevice := inferInstanceAs (Decidable (_ = _))
instance (file : AuVFSNode) : Decidable file.isGeneral := inferInstanceAs (Decidable (_ = _))
instance (file : AuVFSNode) : Decidable file.isSocket := inferInstanceAs (Decidable (_ = _))

/-- No node is freed while a descriptor refers to it; a file or a socket is freed, and the
hook of a device runs, just when the last descriptor goes. -/
structure Exact (s t : State) : Prop where
  safe : ∀ n, n ≠ 0 → Referred t n → t.freed n = 0
  freed : ∀ n, n ≠ 0 → (s.node n).isGeneral ∨ (s.node n).isSocket →
    AtLast (Referred s n) (Referred t n) (s.freed n) (t.freed n)
  hooks : ∀ n, n ≠ 0 → (s.node n).isDevice → (s.node n).close →
    AtLast (Referred s n) (Referred t n) (s.hooks n) (t.hooks n)

/-- The descriptor is the only one that refers to its node. -/
def Only (s : State) (p i : ℕ) : Prop := ∀ q j, s.fds q j = s.fds p i → q = p ∧ j = i

/-- A device or a socket is closed only through its only descriptor; a file's count starts at
0 and does not wrap. -/
def Balanced (s : State) : FileOp → Prop
  | .openFresh _ copyCount _ => copyCount = 0
  | .pass p fileno dest_fdidx proc_id => s.fds proc_id dest_fdidx = 0 →
      (s.node (s.fds p fileno)).isGeneral → (s.node (s.fds p fileno)).fileCopyCount + 1 < 2 ^ 16
  | .dup p oldfd newfd => ∀ o n, capLookup s p oldfd = some o → capSlot newfd = some n →
      (s.caps p n).valid = false → s.fds p n = 0 → (s.node (s.fds p o)).isGeneral →
      (s.node (s.fds p o)).fileCopyCount + 1 < 2 ^ 16
  | .close p fd => ∀ i, capSlot fd = some i → s.fds p i ≠ 0 →
      (s.node (s.fds p i)).isDevice ∨ (s.node (s.fds p i)).isSocket → Only s p i
  | .exit p => ∀ i < FILE_DESC_PER_PROCESS, s.fds p i ≠ 0 →
      (s.node (s.fds p i)).isDevice ∨ (s.node (s.fds p i)).isSocket → Only s p i
  | _ => True

/-- The copy count of a file is the number of its other descriptors. -/
structure NodesInv (s : State) : Prop where
  fd : ∀ p i, s.fds p i < s.nextNode
  slot : ∀ p i, s.fds p i ≠ 0 → i < FILE_DESC_PER_PROCESS
  kind : ∀ n, n < s.nextNode → n ≠ 0 → (s.node n).isDevice ∨ (s.node n).isGeneral ∨
    (s.node n).isSocket ∧ (s.node n).close
  safe : ∀ n, n ≠ 0 → Referred s n → s.freed n = 0
  device : ∀ n, n ≠ 0 → (s.node n).isDevice → s.freed n = 0
  fresh : ∀ n, s.nextNode ≤ n → s.freed n = 0
  counted : ∀ n, n ≠ 0 → (s.node n).isGeneral → Referred s n → ∃ l : List (ℕ × ℕ), l.Nodup ∧
    (∀ p i, (p, i) ∈ l ↔ s.fds p i = n) ∧ l.length = (s.node n).fileCopyCount + 1

variable {s t u : State} {p q i j n k : ℕ}

theorem Exact.refl (hi : NodesInv s) : Exact s s where
  safe := hi.safe
  freed _ _ _ := ⟨fun h => absurd h.1 h.2, fun _ => rfl⟩
  hooks _ _ _ _ := ⟨fun h => absurd h.1 h.2, fun _ => rfl⟩

/-! ## One descriptor goes -/

/-- The descriptor `i` of `p` is cleared, and its node is treated after its kind. -/
structure Closes (s t : State) (p i : ℕ) : Prop where
  fds : t.fds = setSlot s.fds p i 0
  next : t.nextNode = s.nextNode
  flags : ∀ k, (t.node k).flags = (s.node k).flags
  close : ∀ k, (t.node k).close = (s.node k).close
  other : ∀ k, k ≠ s.fds p i → (t.node k).fileCopyCount = (s.node k).fileCopyCount ∧
    t.freed k = s.freed k ∧ t.hooks k = s.hooks k
  device : (s.node (s.fds p i)).isDevice → t.freed (s.fds p i) = s.freed (s.fds p i) ∧
    ((s.node (s.fds p i)).close → t.hooks (s.fds p i) = s.hooks (s.fds p i) + 1)
  socket : (s.node (s.fds p i)).isSocket → (s.node (s.fds p i)).close →
    t.freed (s.fds p i) = s.freed (s.fds p i) + 1
  general : (s.node (s.fds p i)).isGeneral →
    ((s.node (s.fds p i)).fileCopyCount = 0 → t.freed (s.fds p i) = s.freed (s.fds p i) + 1) ∧
    ((s.node (s.fds p i)).fileCopyCount ≠ 0 → t.freed (s.fds p i) = s.freed (s.fds p i) ∧
      (t.node (s.fds p i)).fileCopyCount + 1 = (s.node (s.fds p i)).fileCopyCount)

/-- The other nodes keep the descriptors that they had. -/
theorem Closes.referred (h : Closes s t p i) (hn : n ≠ 0) (hk : n ≠ s.fds p i) :
    Referred t n ↔ Referred s n := by
  constructor
  · rintro ⟨q, j, hq⟩
    rw [h.fds, setSlot_apply] at hq
    split_ifs at hq
    · exact absurd hq.symm hn
    · exact ⟨q, j, hq⟩
  · rintro ⟨q, j, hq⟩
    refine ⟨q, j, ?_⟩
    rw [h.fds, setSlot_apply, if_neg]
    · exact hq
    · rintro ⟨rfl, rfl⟩
      exact hk hq.symm

theorem Closes.mono (h : Closes s t p i) (hn : n ≠ 0) (hr : Referred t n) : Referred s n := by
  obtain ⟨q, j, hq⟩ := hr
  rw [h.fds, setSlot_apply] at hq
  split_ifs at hq
  · exact absurd hq.symm hn
  · exact ⟨q, j, hq⟩

theorem Closes.unreferred (h : Closes s t p i) (hn : s.fds p i ≠ 0) (ho : Only s p i) :
    ¬Referred t (s.fds p i) := by
  rintro ⟨q, j, hq⟩
  rw [h.fds, setSlot_apply] at hq
  split_ifs at hq with hc
  · exact hn hq.symm
  · exact hc (ho q j hq)

/-- A file's last descriptor is the one that goes when its count is 0. -/
theorem Closes.general_cases (hi : NodesInv s) (h : Closes s t p i) (hn : s.fds p i ≠ 0)
    (hg : (s.node (s.fds p i)).isGeneral) :
    (s.node (s.fds p i)).fileCopyCount = 0 ∧ ¬Referred t (s.fds p i) ∨
    (s.node (s.fds p i)).fileCopyCount ≠ 0 ∧ Referred t (s.fds p i) ∧
      ∃ l : List (ℕ × ℕ), l.Nodup ∧ (∀ q j, (q, j) ∈ l ↔ t.fds q j = s.fds p i) ∧
        l.length = (s.node (s.fds p i)).fileCopyCount := by
  obtain ⟨l, hnd, hmem, hlen⟩ := hi.counted _ hn hg ⟨p, i, rfl⟩
  have hpi : (p, i) ∈ l := (hmem p i).mpr rfl
  have hmem' : ∀ q j, (q, j) ∈ l.erase (p, i) ↔ t.fds q j = s.fds p i := by
    intro q j
    rw [hnd.mem_erase_iff, hmem, h.fds, setSlot_apply]
    split_ifs with hc
    · constructor
      · intro hq
        exact absurd (Prod.ext hc.1 hc.2) hq.1
      · intro h0
        exact absurd h0.symm hn
    · constructor
      · exact fun hq => hq.2
      · intro hq
        exact ⟨fun he => hc (Prod.mk.inj he), hq⟩
  have hlen' : (l.erase (p, i)).length = (s.node (s.fds p i)).fileCopyCount := by
    rw [List.length_erase_of_mem hpi, hlen, Nat.add_sub_cancel]
  by_cases h0 : (s.node (s.fds p i)).fileCopyCount = 0
  · left
    refine ⟨h0, ?_⟩
    rintro ⟨q, j, hq⟩
    have hm := (hmem' q j).mpr hq
    rw [List.eq_nil_of_length_eq_zero (hlen'.trans h0)] at hm
    cases hm
  · right
    refine ⟨h0, ?_, _, hnd.erase _, hmem', hlen'⟩
    obtain ⟨⟨q, j⟩, hm⟩ := List.exists_mem_of_length_pos
      (hlen'.symm ▸ Nat.pos_of_ne_zero h0 : 0 < (l.erase (p, i)).length)
    exact ⟨q, j, (hmem' q j).mp hm⟩

theorem Closes.fds_iff (h : Closes s t p i) (hn : n ≠ 0) (hk : n ≠ s.fds p i) (q j : ℕ) :
    t.fds q j = n ↔ s.fds q j = n := by
  rw [h.fds, setSlot_apply]
  split_ifs with hc
  · rw [hc.1, hc.2]
    exact ⟨fun h0 => absurd h0.symm hn, fun he => absurd he.symm hk⟩
  · rfl

theorem Closes.freed_zero (hi : NodesInv s) (h : Closes s t p i) (hn : s.fds p i ≠ 0)
    (ho : (s.node (s.fds p i)).isDevice ∨ (s.node (s.fds p i)).isSocket → Only s p i)
    (hr : Referred t (s.fds p i)) : t.freed (s.fds p i) = 0 := by
  have h0 := hi.safe _ hn ⟨p, i, rfl⟩
  rcases hi.kind _ (hi.fd p i) hn with hd | hg | ⟨hs, -⟩
  · rw [(h.device hd).1, h0]
  · rcases h.general_cases hi hn hg with ⟨-, hu⟩ | ⟨hc, -⟩
    · exact absurd hr hu
    · rw [((h.general hg).2 hc).1, h0]
  · exact absurd hr (h.unreferred hn (ho (Or.inr hs)))

theorem Closes.inv (hi : NodesInv s) (h : Closes s t p i) (hn : s.fds p i ≠ 0)
    (ho : (s.node (s.fds p i)).isDevice ∨ (s.node (s.fds p i)).isSocket → Only s p i) :
    NodesInv t where
  fd q j := by
    rw [h.fds, setSlot_apply, h.next]
    have := hi.fd p i
    split_ifs
    · omega
    · exact hi.fd q j
  slot q j hq := by
    rw [h.fds, setSlot_apply] at hq
    split_ifs at hq with hc
    · exact absurd rfl hq
    · exact hi.slot q j hq
  kind k hk h0 := by
    rw [h.next] at hk
    simp only [AuVFSNode.isDevice, AuVFSNode.isGeneral, AuVFSNode.isSocket, h.flags, h.close]
    exact hi.kind k hk h0
  safe k h0 hr := by
    by_cases hk : k = s.fds p i
    · rw [hk] at hr ⊢
      exact h.freed_zero hi hn ho hr
    · rw [(h.other k hk).2.1]
      exact hi.safe k h0 (h.mono h0 hr)
  device k h0 hd := by
    rw [AuVFSNode.isDevice, h.flags] at hd
    by_cases hk : k = s.fds p i
    · rw [hk] at hd ⊢
      rw [(h.device hd).1]
      exact hi.device _ hn hd
    · rw [(h.other k hk).2.1]
      exact hi.device k h0 hd
  fresh k hk := by
    rw [h.next] at hk
    have hki : k ≠ s.fds p i := by
      have := hi.fd p i
      omega
    rw [(h.other k hki).2.1]
    exact hi.fresh k hk
  counted k h0 hg hr := by
    rw [AuVFSNode.isGeneral, h.flags] at hg
    by_cases hk : k = s.fds p i
    · rw [hk] at hg hr ⊢
      rcases h.general_cases hi hn hg with ⟨-, hu⟩ | ⟨hc, -, l, hnd, hmem, hlen⟩
      · exact absurd hr hu
      · refine ⟨l, hnd, hmem, ?_⟩
        rw [hlen, ((h.general hg).2 hc).2]
    · obtain ⟨l, hnd, hmem, hlen⟩ := hi.counted k h0 hg ((h.referred h0 hk).mp hr)
      refine ⟨l, hnd, fun q j => ?_, ?_⟩
      · rw [hmem, h.fds_iff h0 hk]
      · rw [hlen, (h.other k hk).1]

theorem Closes.exact (hi : NodesInv s) (h : Closes s t p i) (hn : s.fds p i ≠ 0)
    (ho : (s.node (s.fds p i)).isDevice ∨ (s.node (s.fds p i)).isSocket → Only s p i) :
    Exact s t where
  safe := (h.inv hi hn ho).safe
  freed k h0 hk := by
    by_cases hki : k = s.fds p i
    · rw [hki] at hk ⊢
      have hr : Referred s (s.fds p i) := ⟨p, i, rfl⟩
      rcases hk with hg | hs
      · rcases h.general_cases hi hn hg with ⟨hc, hu⟩ | ⟨hc, ht, -⟩
        · exact ⟨fun _ => (h.general hg).1 hc, fun hnot => absurd ⟨hr, hu⟩ hnot⟩
        · exact ⟨fun hb => absurd ht hb.2, fun _ => ((h.general hg).2 hc).1⟩
      · have hu := h.unreferred hn (ho (Or.inr hs))
        have hc : (s.node (s.fds p i)).close := by
          rcases hi.kind _ (hi.fd p i) hn with hd | hg | ⟨-, hc⟩
          · rw [AuVFSNode.isDevice, hs] at hd
            exact absurd hd (by decide)
          · rw [AuVFSNode.isGeneral, hs] at hg
            exact absurd hg (by decide)
          · exact hc
        exact ⟨fun _ => h.socket hs hc, fun hnot => absurd ⟨hr, hu⟩ hnot⟩
    · rw [h.referred h0 hki]
      exact ⟨fun hb => absurd hb.1 hb.2, fun _ => (h.other k hki).2.1⟩
  hooks k h0 hd hc := by
    by_cases hki : k = s.fds p i
    · rw [hki] at hd hc ⊢
      have hr : Referred s (s.fds p i) := ⟨p, i, rfl⟩
      have hu := h.unreferred hn (ho (Or.inl hd))
      exact ⟨fun _ => (h.device hd).2 hc, fun hnot => absurd ⟨hr, hu⟩ hnot⟩
    · rw [h.referred h0 hki]
      exact ⟨fun hb => absurd hb.1 hb.2, fun _ => (h.other k hki).2.2⟩

/-! ### Closing -/

theorem AuVFSNode.has_eq {file : AuVFSNode} {f : BitVec 16} (h : file.flags = f)
    (g : BitVec 16) : file.has g = decide (f &&& g ≠ 0) := by
  rw [AuVFSNode.has, h]

@[simp] theorem clearDesc_fds : (clearDesc s p i).fds = setSlot s.fds p i 0 := clearSlot_fds
@[simp] theorem clearDesc_node : (clearDesc s p i).node = s.node := clearSlot_node
@[simp] theorem clearDesc_next : (clearDesc s p i).nextNode = s.nextNode := clearSlot_nextNode
@[simp] theorem clearDesc_freed : (clearDesc s p i).freed = s.freed := clearSlot_freed
@[simp] theorem clearDesc_hooks : (clearDesc s p i).hooks = s.hooks := clearSlot_hooks

/-- `t` is `s` with one descriptor cleared. -/
structure Cleared (s t : State) (p i : ℕ) : Prop where
  fds : t.fds = setSlot s.fds p i 0
  next : t.nextNode = s.nextNode
  node : t.node = s.node
  freed : t.freed = s.freed
  hooks : t.hooks = s.hooks

theorem cleared_clearDesc (s : State) (p i : ℕ) : Cleared s (clearDesc s p i) p i :=
  ⟨clearDesc_fds, clearDesc_next, clearDesc_node, clearDesc_freed, clearDesc_hooks⟩

theorem runHook_hooks (s : State) (n k : ℕ) :
    (runHook s n).hooks k = if k = n ∧ (s.node n).close then s.hooks k + 1 else s.hooks k := by
  unfold runHook
  by_cases hc : (s.node n).close
  · by_cases hk : k = n
    · simp [hc, hk]
    · simp [hc, hk]
  · simp [hc]

theorem runHook_frame (s : State) (n : ℕ) : (runHook s n).fds = s.fds ∧
    (runHook s n).nextNode = s.nextNode ∧ (runHook s n).node = s.node ∧
    (runHook s n).freed = s.freed := by
  unfold runHook
  split_ifs
  · exact ⟨rfl, rfl, rfl, rfl⟩
  · exact ⟨rfl, rfl, rfl, rfl⟩

theorem kfreeNode_freed (s : State) (n k : ℕ) :
    (kfreeNode s n).freed k = if k = n then s.freed k + 1 else s.freed k := by
  by_cases hk : k = n
  · simp [kfreeNode, hk]
  · simp [kfreeNode, hk]

theorem countDown_count (s : State) (n k : ℕ) : ((countDown s n).node k).fileCopyCount =
    if k = n then (s.node k).fileCopyCount - 1 else (s.node k).fileCopyCount := by
  by_cases hk : k = n
  · simp [countDown, hk]
  · simp [countDown, hk]

theorem countDown_flags (s : State) (n k : ℕ) :
    ((countDown s n).node k).flags = (s.node k).flags ∧
    ((countDown s n).node k).close = (s.node k).close := by
  by_cases hk : k = n
  · simp [countDown, hk]
  · simp [countDown, hk]

theorem Cleared.hook (h : Cleared s t p i) (hd : (s.node (s.fds p i)).isDevice) :
    Closes s (runHook t (s.fds p i)) p i := by
  obtain ⟨hf, hx, hn, hr⟩ := runHook_frame t (s.fds p i)
  constructor
  · rw [hf, h.fds]
  · rw [hx, h.next]
  · intro k
    rw [hn, h.node]
  · intro k
    rw [hn, h.node]
  · intro k hk
    rw [hn, h.node, hr, h.freed, runHook_hooks, if_neg fun hc => hk hc.1, h.hooks]
    exact ⟨rfl, rfl, rfl⟩
  · intro _
    rw [hr, h.freed, runHook_hooks, h.node, h.hooks]
    exact ⟨rfl, fun hc => if_pos ⟨rfl, hc⟩⟩
  · intro hs
    rw [AuVFSNode.isSocket, hd] at hs
    exact absurd hs (by decide)
  · intro hg
    rw [AuVFSNode.isGeneral, hd] at hg
    exact absurd hg (by decide)

/-- A copy count does not matter to devices. -/
theorem Closes.countDown (h : Closes s t p i) (hd : (s.node (s.fds p i)).isDevice) :
    Closes s (countDown t (s.fds p i)) p i where
  fds := h.fds
  next := h.next
  flags k := (countDown_flags t _ k).1.trans (h.flags k)
  close k := (countDown_flags t _ k).2.trans (h.close k)
  other k hk := by
    rw [countDown_count, if_neg hk]
    exact h.other k hk
  device := h.device
  socket := h.socket
  general hg := by
    rw [AuVFSNode.isGeneral, hd] at hg
    exact absurd hg (by decide)

theorem Cleared.free (h : Cleared s t p i) (hs : (s.node (s.fds p i)).isSocket)
    (hc : (s.node (s.fds p i)).close) : Closes s (socketClose t (s.fds p i)) p i := by
  obtain ⟨hf, hx, hn, hr⟩ := runHook_frame t (s.fds p i)
  have he : socketClose t (s.fds p i) = kfreeNode (runHook t (s.fds p i)) (s.fds p i) := by
    rw [socketClose, h.node, if_pos hc]
  rw [he]
  constructor
  · exact hf.trans h.fds
  · exact hx.trans h.next
  · intro k
    rw [kfreeNode, hn, h.node]
  · intro k
    rw [kfreeNode, hn, h.node]
  · intro k hk
    rw [kfreeNode_freed, if_neg hk, hr, h.freed]
    refine ⟨by rw [kfreeNode, hn, h.node], rfl, ?_⟩
    exact (runHook_hooks t _ k).trans ((if_neg fun hb => hk hb.1).trans (congrFun h.hooks k))
  · intro hd
    rw [AuVFSNode.isDevice, hs] at hd
    exact absurd hd (by decide)
  · intro _ _
    rw [kfreeNode_freed, if_pos rfl, hr, h.freed]
  · intro hg
    rw [AuVFSNode.isGeneral, hs] at hg
    exact absurd hg (by decide)

theorem Cleared.drop (h : Cleared s t p i) (hg : (s.node (s.fds p i)).isGeneral) :
    Closes s (dropNode t (s.fds p i)) p i := by
  have hd : ¬(s.node (s.fds p i)).isDevice := by
    rw [AuVFSNode.isDevice, hg]
    decide
  have hs : ¬(s.node (s.fds p i)).isSocket := by
    rw [AuVFSNode.isSocket, hg]
    decide
  rw [dropNode, h.node]
  split_ifs with h0
  · constructor
    · exact h.fds
    · exact h.next
    · intro k
      rw [kfreeNode, h.node]
    · intro k
      rw [kfreeNode, h.node]
    · intro k hk
      rw [kfreeNode_freed, if_neg hk, h.freed, kfreeNode, h.node, h.hooks]
      exact ⟨rfl, rfl, rfl⟩
    · exact fun hd' => absurd hd' hd
    · exact fun hs' => absurd hs' hs
    · intro _
      rw [kfreeNode_freed, if_pos rfl, h.freed]
      exact ⟨fun _ => rfl, fun hne => absurd h0 hne⟩
  · constructor
    · exact h.fds
    · exact h.next
    · intro k
      rw [(countDown_flags t _ k).1, h.node]
    · intro k
      rw [(countDown_flags t _ k).2, h.node]
    · intro k hk
      rw [countDown_count, if_neg hk, h.node, countDown, h.freed, h.hooks]
      exact ⟨rfl, rfl, rfl⟩
    · exact fun hd' => absurd hd' hd
    · exact fun hs' => absurd hs' hs
    · intro _
      rw [countDown_count, if_pos rfl, h.node, countDown, h.freed]
      exact ⟨fun hz => absurd hz h0, fun _ => ⟨rfl, by omega⟩⟩

theorem closeFile_closes (hi : NodesInv s) {fd : ℤ} (hs : capSlot fd = some i)
    (hn : s.fds p i ≠ 0) : Closes s (closeFile s p fd).1 p i := by
  have hcl := cleared_clearDesc s p i
  simp only [closeFile, hs, if_neg hn]
  rcases hi.kind _ (hi.fd p i) hn with hd | hg | ⟨hk, hc⟩
  · simp only [AuVFSNode.has_eq hd]
    exact hcl.hook hd
  · simp only [AuVFSNode.has_eq hg]
    exact hcl.drop hg
  · simp only [AuVFSNode.has_eq hk]
    exact hcl.free hk hc

theorem closeSlot_closes (hi : NodesInv s) (hn : s.fds p i ≠ 0) :
    Closes s (closeSlot s p i) p i := by
  have hcl : Cleared s { s with fds := setSlot s.fds p i 0 } p i := ⟨rfl, rfl, rfl, rfl, rfl⟩
  simp only [closeSlot, if_neg hn]
  rcases hi.kind _ (hi.fd p i) hn with hd | hg | ⟨hk, hc⟩
  · simp only [AuVFSNode.has_eq hd]
    change Closes s (auDevFSNodeClose _ (s.fds p i)) p i
    unfold auDevFSNodeClose
    split_ifs
    · exact hcl.hook hd
    · exact (hcl.hook hd).countDown hd
  · simp only [AuVFSNode.has_eq hg]
    have hcd := hcl.drop hg
    by_cases h0 : (s.node (s.fds p i)).fileCopyCount = 0
    · rcases hcd.general_cases hi hn hg with ⟨-, hu⟩ | ⟨hc, -⟩
      · -- no second descriptor is left to clear
        have hsame : (fun q j => if q = p ∧ i < j ∧ j < FILE_DESC_PER_PROCESS ∧
            setSlot s.fds p i 0 q j = s.fds p i then 0 else setSlot s.fds p i 0 q j) =
            setSlot s.fds p i 0 := by
          funext q j
          apply if_neg
          intro hq
          exact hu ⟨q, j, by rw [hcd.fds, hq.2.2.2]⟩
        simp only [dropNode, if_pos h0] at hcd
        simp only [if_pos h0, hsame]
        exact hcd
      · exact absurd h0 hc
    · simp only [dropNode, if_neg h0] at hcd
      simp only [if_neg h0]
      exact hcd
  · simp only [AuVFSNode.has_eq hk]
    exact hcl.free hk hc

/-! ### A process ends -/

/-- What a process's end keeps while it clears one descriptor after the other. -/
structure Shrinks (s t : State) : Prop where
  fds : ∀ q j, t.fds q j = s.fds q j ∨ t.fds q j = 0
  flags : ∀ n, (t.node n).flags = (s.node n).flags
  close : ∀ n, (t.node n).close = (s.node n).close
  exact : Exact s t

theorem Shrinks.referred (h : Shrinks s t) (hn : n ≠ 0) (hr : Referred t n) : Referred s n := by
  obtain ⟨q, j, hq⟩ := hr
  rcases h.fds q j with he | he
  · exact ⟨q, j, he ▸ hq⟩
  · exact absurd (hq.symm.trans he) hn

theorem Shrinks.trans (h : Shrinks s t) (h' : Shrinks t u) : Shrinks s u where
  fds q j := by
    rcases h'.fds q j with he | he
    · rw [he]
      exact h.fds q j
    · exact Or.inr he
  flags n := (h'.flags n).trans (h.flags n)
  close n := (h'.close n).trans (h.close n)
  exact := {
    safe := h'.exact.safe
    freed := by
      intro n hn hk
      apply (h.exact.freed n hn hk).trans (h'.exact.freed n hn _) (h.referred hn) (h'.referred hn)
      simp only [AuVFSNode.isGeneral, AuVFSNode.isSocket, h.flags]
      exact hk
    hooks := by
      intro n hn hd hc
      apply (h.exact.hooks n hn hd hc).trans (h'.exact.hooks n hn _ _) (h.referred hn)
        (h'.referred hn)
      · rw [AuVFSNode.isDevice, h.flags]
        exact hd
      · rw [h.close]
        exact hc }

/-- No other process has the devices and sockets of `p`. -/
def Alone (s : State) (p : ℕ) : Prop := ∀ i, s.fds p i ≠ 0 →
  (s.node (s.fds p i)).isDevice ∨ (s.node (s.fds p i)).isSocket → Only s p i

theorem Shrinks.alone (h : Shrinks s t) (ha : Alone s p) : Alone t p := by
  intro i hn hk q j hq
  have hi : t.fds p i = s.fds p i := (h.fds p i).resolve_right hn
  have hj : t.fds q j = s.fds q j := (h.fds q j).resolve_right (hq ▸ hn)
  rw [hi] at hn
  rw [hi, AuVFSNode.isDevice, AuVFSNode.isSocket, h.flags] at hk
  exact ha i hn hk q j (hj ▸ hi ▸ hq)

theorem Shrinks.refl (hi : NodesInv s) : Shrinks s s :=
  ⟨fun _ _ => Or.inl rfl, fun _ => rfl, fun _ => rfl, Exact.refl hi⟩

theorem closeSlot_shrinks (hi : NodesInv s) (ha : Alone s p) (i : ℕ) :
    NodesInv (closeSlot s p i) ∧ Shrinks s (closeSlot s p i) := by
  by_cases hn : s.fds p i = 0
  · have he : closeSlot s p i = s := if_pos hn
    rw [he]
    exact ⟨hi, .refl hi⟩
  · have hc := closeSlot_closes hi hn
    refine ⟨hc.inv hi hn (ha i hn), ?_, hc.flags, hc.close, hc.exact hi hn (ha i hn)⟩
    intro q j
    rw [hc.fds, setSlot_apply]
    split_ifs
    · exact Or.inr rfl
    · exact Or.inl rfl

theorem closeLoop_shrinks (hi : NodesInv s) (ha : Alone s p) (l : List ℕ) :
    NodesInv (l.foldl (fun s i => closeSlot s p i) s) ∧
      Shrinks s (l.foldl (fun s i => closeSlot s p i) s) := by
  induction l generalizing s with
  | nil => exact ⟨hi, .refl hi⟩
  | cons i l ih =>
    obtain ⟨hi', hs⟩ := closeSlot_shrinks hi ha i
    obtain ⟨hi'', hs'⟩ := ih hi' (hs.alone ha)
    exact ⟨hi'', hs.trans hs'⟩

/-! ## Descriptors come -/

/-- The part of the state that is about nodes. -/
structure SameFiles (s t : State) : Prop where
  fds : t.fds = s.fds
  next : t.nextNode = s.nextNode
  node : t.node = s.node
  freed : t.freed = s.freed
  hooks : t.hooks = s.hooks

theorem SameFiles.referred (h : SameFiles s t) (n : ℕ) : Referred t n ↔ Referred s n := by
  rw [Referred, Referred, h.fds]

theorem SameFiles.inv (h : SameFiles s t) (hi : NodesInv s) : NodesInv t where
  fd := by
    rw [h.fds, h.next]
    exact hi.fd
  slot := by
    rw [h.fds]
    exact hi.slot
  kind := by
    rw [h.next, h.node]
    exact hi.kind
  safe n := by
    rw [h.referred, h.freed]
    exact hi.safe n
  device := by
    rw [h.node, h.freed]
    exact hi.device
  fresh := by
    rw [h.next, h.freed]
    exact hi.fresh
  counted n := by
    rw [h.referred, h.node, h.fds]
    exact hi.counted n

/-- A step that takes no descriptor away frees nothing. -/
theorem Exact.grow (hi : NodesInv t) (hr : ∀ n, n ≠ 0 → Referred s n → Referred t n)
    (hf : t.freed = s.freed) (hh : t.hooks = s.hooks) : Exact s t where
  safe := hi.safe
  freed n hn _ := by
    rw [hf]
    exact ⟨fun hc => absurd (hr n hn hc.1) hc.2, fun _ => rfl⟩
  hooks n hn _ _ := by
    rw [hh]
    exact ⟨fun hc => absurd (hr n hn hc.1) hc.2, fun _ => rfl⟩

/-- The free descriptor `i` of `p` refers to `n` now. -/
structure Adds (s t : State) (p i n : ℕ) : Prop where
  fds : t.fds = setSlot s.fds p i n
  next : t.nextNode = s.nextNode
  flags : ∀ k, (t.node k).flags = (s.node k).flags
  close : ∀ k, (t.node k).close = (s.node k).close
  other : ∀ k, k ≠ n → (t.node k).fileCopyCount = (s.node k).fileCopyCount
  freed : t.freed = s.freed
  hooks : t.hooks = s.hooks

theorem Adds.same (h : Adds s t p i n) (h' : SameFiles t u) : Adds s u p i n where
  fds := h'.fds.trans h.fds
  next := h'.next.trans h.next
  flags := h'.node ▸ h.flags
  close := h'.node ▸ h.close
  other := h'.node ▸ h.other
  freed := h'.freed.trans h.freed
  hooks := h'.hooks.trans h.hooks

theorem Adds.grow (h : Adds s t p i n) (h0 : s.fds p i = 0) (hk : k ≠ 0) (hr : Referred s k) :
    Referred t k := by
  obtain ⟨q, j, hq⟩ := hr
  refine ⟨q, j, ?_⟩
  rw [h.fds, setSlot_apply, if_neg]
  · exact hq
  · rintro ⟨rfl, rfl⟩
    exact hk (hq.symm.trans h0)

theorem Adds.fds_iff (h : Adds s t p i n) (h0 : s.fds p i = 0) (hk : k ≠ 0) (q j : ℕ) :
    t.fds q j = k ↔ s.fds q j = k ∨ (q = p ∧ j = i) ∧ k = n := by
  rw [h.fds, setSlot_apply]
  split_ifs with hc
  · rw [hc.1, hc.2, h0]
    constructor
    · exact fun he => Or.inr ⟨⟨rfl, rfl⟩, he.symm⟩
    · rintro (he | ⟨-, he⟩)
      · exact absurd he.symm hk
      · exact he.symm
  · constructor
    · exact Or.inl
    · rintro (he | ⟨hb, -⟩)
      · exact he
      · exact absurd hb hc

theorem Adds.inv (h : Adds s t p i n) (hi : NodesInv s) (h0 : s.fds p i = 0)
    (h60 : i < FILE_DESC_PER_PROCESS) (hn : n ≠ 0) (hlt : n < s.nextNode) (hz : s.freed n = 0)
    (hg : (s.node n).isGeneral →
      (Referred s n → (t.node n).fileCopyCount = (s.node n).fileCopyCount + 1) ∧
      (¬Referred s n → (t.node n).fileCopyCount = 0)) : NodesInv t where
  fd q j := by
    rw [h.fds, setSlot_apply, h.next]
    split_ifs
    · exact hlt
    · exact hi.fd q j
  slot q j hq := by
    rw [h.fds, setSlot_apply] at hq
    split_ifs at hq with hc
    · rw [hc.2]
      exact h60
    · exact hi.slot q j hq
  kind k hk hk0 := by
    rw [h.next] at hk
    simp only [AuVFSNode.isDevice, AuVFSNode.isGeneral, AuVFSNode.isSocket, h.flags, h.close]
    exact hi.kind k hk hk0
  safe k hk hr := by
    rw [h.freed]
    obtain ⟨q, j, hq⟩ := hr
    rcases (h.fds_iff h0 hk q j).mp hq with he | ⟨-, he⟩
    · exact hi.safe k hk ⟨q, j, he⟩
    · rw [he]
      exact hz
  device k hk hd := by
    rw [AuVFSNode.isDevice, h.flags] at hd
    rw [h.freed]
    exact hi.device k hk hd
  fresh k hk := by
    rw [h.freed]
    exact hi.fresh k (h.next ▸ hk)
  counted k hk hgk hr := by
    rw [AuVFSNode.isGeneral, h.flags] at hgk
    by_cases hkn : k = n
    · subst hkn
      by_cases hs : Referred s k
      · obtain ⟨l, hnd, hmem, hlen⟩ := hi.counted k hk hgk hs
        refine ⟨(p, i) :: l, ?_, ?_, ?_⟩
        · rw [List.nodup_cons]
          refine ⟨fun hm => ?_, hnd⟩
          rw [hmem, h0] at hm
          exact hk hm.symm
        · intro q j
          rw [List.mem_cons, hmem, h.fds_iff h0 hk, Prod.mk.injEq]
          tauto
        · rw [List.length_cons, hlen, (hg hgk).1 hs]
      · refine ⟨[(p, i)], List.nodup_singleton _, ?_, ?_⟩
        · intro q j
          rw [List.mem_singleton, h.fds_iff h0 hk, Prod.mk.injEq]
          have hne : s.fds q j ≠ k := fun he => hs ⟨q, j, he⟩
          tauto
        · rw [(hg hgk).2 hs, List.length_singleton]
    · obtain ⟨q, j, hq⟩ := hr
      have hs : Referred s k := by
        rcases (h.fds_iff h0 hk q j).mp hq with he | ⟨-, he⟩
        · exact ⟨q, j, he⟩
        · exact absurd he hkn
      obtain ⟨l, hnd, hmem, hlen⟩ := hi.counted k hk hgk hs
      refine ⟨l, hnd, ?_, ?_⟩
      · intro q j
        rw [hmem, h.fds_iff h0 hk]
        tauto
      · rw [hlen, h.other k hkn]

/-! ### Opening -/

/-- What every operation does, with the invariant it keeps. -/
def Good (s t : State) : Prop := NodesInv t ∧ Exact s t

theorem Good.refl (hi : NodesInv s) : Good s s := ⟨hi, .refl hi⟩

theorem Adds.good (h : Adds s t p i n) (hi : NodesInv s) (h0 : s.fds p i = 0)
    (h60 : i < FILE_DESC_PER_PROCESS) (hn : n ≠ 0) (hlt : n < s.nextNode) (hz : s.freed n = 0)
    (hg : (s.node n).isGeneral →
      (Referred s n → (t.node n).fileCopyCount = (s.node n).fileCopyCount + 1) ∧
      (¬Referred s n → (t.node n).fileCopyCount = 0)) : Good s t := by
  have ht := h.inv hi h0 h60 hn hlt hz hg
  exact ⟨ht, .grow ht (fun _ => h.grow h0) h.freed h.hooks⟩

theorem sameFiles_create (s : State) (p : ℕ) (fd : ℤ) (object : ℕ) (type : UInt8)
    (rights : CapRights) : SameFiles s (capCreate s p fd object type rights).1 := by
  rcases capCreate_cases s p fd object type rights with he | ⟨j, -, -, he⟩
  · rw [he]
    exact ⟨rfl, rfl, rfl, rfl, rfl⟩
  · rw [he]
    exact ⟨rfl, rfl, rfl, rfl, rfl⟩

theorem nodeCopied_count (file : AuVFSNode) (h : file.fileCopyCount + 1 < 2 ^ 16) :
    (nodeCopied file).fileCopyCount = file.fileCopyCount + 1 := Nat.mod_eq_of_lt h

/-- One more descriptor is counted. -/
theorem adds_copied (h : t.fds = setSlot s.fds p i n) (hx : t.nextNode = s.nextNode)
    (hn : t.node = Function.update s.node n (nodeCopied (s.node n))) (hf : t.freed = s.freed)
    (hh : t.hooks = s.hooks) : Adds s t p i n where
  fds := h
  next := hx
  flags k := by
    rw [hn]
    by_cases hk : k = n
    · rw [hk, Function.update_self]
      rfl
    · rw [Function.update_of_ne hk]
  close k := by
    rw [hn]
    by_cases hk : k = n
    · rw [hk, Function.update_self]
      rfl
    · rw [Function.update_of_ne hk]
  other k hk := by rw [hn, Function.update_of_ne hk]
  freed := hf
  hooks := hh

theorem auDevFSNodeOpen_cases (s : State) (n : ℕ) (driver : Bool) :
    auDevFSNodeOpen s n driver = (s, false) ∨ auDevFSNodeOpen s n driver =
      ({ s with node := Function.update s.node n (nodeCopied (s.node n)) }, true) := by
  unfold auDevFSNodeOpen
  simp only
  split_ifs
  · exact Or.inl rfl
  · exact Or.inl rfl
  · exact Or.inr rfl

theorem openDevice_good (hi : NodesInv s) (hn : n ≠ 0) (hlt : n < s.nextNode)
    (hd : (s.node n).isDevice) (p : ℕ) (mode : BitVec 32) (driver : Bool) :
    Good s (openFile s p n mode driver).1 := by
  unfold openFile
  cases hfd : auProcessGetFileDesc (s.fds p) with
  | none => exact .refl hi
  | some fd =>
    obtain ⟨h60, h0⟩ := auProcessGetFileDesc_spec hfd
    have hdev : (s.node n).has FS_FLAG_DEVICE = true := by
      rw [AuVFSNode.has_eq hd]
      decide
    rcases auDevFSNodeOpen_cases s n driver with he | he
    · simp only [hdev, if_true, he]
      exact .refl hi
    · simp only [hdev, if_true, he]
      have hadd : Adds s { s with
          fds := setSlot s.fds p fd n
          node := Function.update s.node n (nodeCopied (s.node n)) } p fd n :=
        adds_copied rfl rfl rfl rfl rfl
      refine (hadd.same (sameFiles_create _ p fd n CAP_OBJ_FILE (openRights mode))).good hi h0 h60
        hn hlt (hi.device n hn hd) fun hg => ?_
      rw [AuVFSNode.isGeneral, hd] at hg
      exact absurd hg (by decide)

theorem newNode_inv (hi : NodesInv s) {file : AuVFSNode} (hk : file.isGeneral ∨
    file.isSocket ∧ file.close) : NodesInv (newNode s file) := by
  have hlt : ∀ k, k < s.nextNode → (newNode s file).node k = s.node k :=
    fun k hk => Function.update_of_ne (Nat.ne_of_lt hk) _ _
  have hself : (newNode s file).node s.nextNode = file := Function.update_self _ _ _
  have hnd : ¬file.isDevice := by
    rcases hk with hg | ⟨hs, -⟩
    · rw [AuVFSNode.isDevice, hg]
      decide
    · rw [AuVFSNode.isDevice, hs]
      decide
  constructor
  · intro q j
    exact Nat.lt_succ_of_lt (hi.fd q j)
  · exact hi.slot
  · intro k hks hk0
    rcases Nat.lt_succ_iff_lt_or_eq.mp hks with hk' | hk'
    · rw [hlt k hk']
      exact hi.kind k hk' hk0
    · rw [hk', hself]
      exact Or.inr hk
  · exact hi.safe
  · intro k hk0 hd
    by_cases hk' : k < s.nextNode
    · rw [hlt k hk'] at hd
      exact hi.device k hk0 hd
    · exact hi.fresh k (not_lt.mp hk')
  · intro k hks
    exact hi.fresh k (Nat.le_of_succ_le hks)
  · rintro k hk0 hg ⟨q, j, hq⟩
    have hk' : k < s.nextNode := hq ▸ hi.fd q j
    rw [hlt k hk'] at hg ⊢
    exact hi.counted k hk0 hg ⟨q, j, hq⟩

theorem not_referred_next (hi : NodesInv s) : ¬Referred s s.nextNode := by
  rintro ⟨q, j, hq⟩
  exact absurd (hi.fd q j) (hq ▸ lt_irrefl _)

/-- The first descriptor of a node that was just allocated. -/
theorem Adds.fresh {file : AuVFSNode} (h : Adds (newNode s file) t p i s.nextNode)
    (hi : NodesInv s) (hk : file.isGeneral ∧ (t.node s.nextNode).fileCopyCount = 0 ∨
      file.isSocket ∧ file.close) (h0 : s.fds p i = 0) (h60 : i < FILE_DESC_PER_PROCESS) :
    Good s t := by
  have hself : (newNode s file).node s.nextNode = file := Function.update_self _ _ _
  have hpos : s.nextNode ≠ 0 := by
    have := hi.fd 0 0
    omega
  have ht : NodesInv t := by
    apply h.inv (newNode_inv hi (hk.imp_left And.left)) h0 h60 hpos (Nat.lt_succ_self _)
      (hi.fresh _ le_rfl)
    intro hg
    refine ⟨fun hr => absurd hr (not_referred_next hi), fun _ => ?_⟩
    rcases hk with ⟨-, hz⟩ | ⟨hs, -⟩
    · exact hz
    · rw [hself, AuVFSNode.isGeneral, hs] at hg
      exact absurd hg (by decide)
  exact ⟨ht, .grow ht (fun k hk0 hr => h.grow h0 hk0 hr) h.freed h.hooks⟩

theorem openFresh_good (hi : NodesInv s) (p : ℕ) (mode : BitVec 32) :
    Good s (openFile (newNode s (freshFile 0)) p s.nextNode mode true).1 := by
  have hnew := newNode_inv hi (Or.inl rfl : (freshFile 0).isGeneral ∨ _)
  unfold openFile
  cases hfd : auProcessGetFileDesc ((newNode s (freshFile 0)).fds p) with
  | none => exact ⟨hnew, .grow hnew (fun _ _ hr => hr) rfl rfl⟩
  | some fd =>
    obtain ⟨h60, h0⟩ := auProcessGetFileDesc_spec hfd
    have hself : (newNode s (freshFile 0)).node s.nextNode = freshFile 0 :=
      Function.update_self _ _ _
    have hdev : ((newNode s (freshFile 0)).node s.nextNode).has FS_FLAG_DEVICE = false := by
      rw [hself]
      decide
    simp only [hdev]
    have hadd : Adds (newNode s (freshFile 0)) { newNode s (freshFile 0) with
        fds := setSlot s.fds p fd s.nextNode } p fd s.nextNode :=
      ⟨rfl, rfl, fun _ => rfl, fun _ => rfl, fun _ _ => rfl, rfl, rfl⟩
    have hsame := sameFiles_create { newNode s (freshFile 0) with
      fds := setSlot s.fds p fd s.nextNode } p fd s.nextNode CAP_OBJ_FILE (openRights mode)
    apply (hadd.same hsame).fresh hi (Or.inl ⟨rfl, ?_⟩) h0 h60
    rw [hsame.node, hself]
    rfl

theorem createSocket_good (hi : NodesInv s) (p : ℕ) : Good s (createSocket s p).1 := by
  unfold createSocket
  cases hfd : auProcessGetFileDesc (s.fds p) with
  | none => exact .refl hi
  | some fd =>
    obtain ⟨h60, h0⟩ := auProcessGetFileDesc_spec hfd
    have hadd : Adds (newNode s socketNode) { newNode s socketNode with
        fds := setSlot s.fds p fd s.nextNode } p fd s.nextNode :=
      ⟨rfl, rfl, fun _ => rfl, fun _ => rfl, fun _ _ => rfl, rfl, rfl⟩
    exact hadd.fresh hi (Or.inr ⟨rfl, rfl⟩) h0 h60

/-- A second descriptor of a node that has one. -/
theorem Adds.shared (h : Adds s t p i n) (hi : NodesInv s) (h0 : s.fds p i = 0)
    (h60 : i < FILE_DESC_PER_PROCESS) (hn : n ≠ 0) (hr : Referred s n)
    (hc : (t.node n).fileCopyCount = (nodeCopied (s.node n)).fileCopyCount)
    (hb : (s.node n).isGeneral → (s.node n).fileCopyCount + 1 < 2 ^ 16) : Good s t := by
  have hlt : n < s.nextNode := by
    obtain ⟨q, j, hq⟩ := hr
    exact hq ▸ hi.fd q j
  apply h.good hi h0 h60 hn hlt (hi.safe n hn hr)
  intro hg
  refine ⟨fun _ => ?_, fun hu => absurd hr hu⟩
  rw [hc, nodeCopied_count _ (hb hg)]

theorem pass_good (hi : NodesInv s) (p : ℕ) (fileno dest_fdidx : Fin FILE_DESC_PER_PROCESS)
    (proc_id : ℕ) (h : Balanced s (.pass p fileno dest_fdidx proc_id)) :
    Good s (setFileToProcess s p fileno dest_fdidx proc_id).1 := by
  unfold setFileToProcess
  simp only
  split_ifs with h0 hd
  · exact .refl hi
  · exact .refl hi
  · have hd0 : s.fds proc_id dest_fdidx = 0 := by simpa using hd
    have hadd : Adds s { s with
        fds := setSlot s.fds proc_id dest_fdidx (s.fds p fileno)
        node := Function.update s.node (s.fds p fileno) (nodeCopied (s.node (s.fds p fileno))) }
        proc_id dest_fdidx (s.fds p fileno) := adds_copied rfl rfl rfl rfl rfl
    have hgood : ∀ u, SameFiles { s with
        fds := setSlot s.fds proc_id dest_fdidx (s.fds p fileno)
        node := Function.update s.node (s.fds p fileno)
          (nodeCopied (s.node (s.fds p fileno))) } u → Good s u := by
      intro u hu
      apply (hadd.same hu).shared hi hd0 dest_fdidx.isLt h0 ⟨p, fileno, rfl⟩ _ (h hd0)
      simp only [hu.node, Function.update_self]
    split
    · exact hgood _ ⟨rfl, rfl, rfl, rfl, rfl⟩
    · split_ifs
      · exact hgood _ ⟨rfl, rfl, rfl, rfl, rfl⟩
      · exact hgood _ (sameFiles_create _ _ _ _ _ _)

theorem dup_good (hi : NodesInv s) {oldfd newfd : ℤ} (h : Balanced s (.dup p oldfd newfd)) :
    Good s (capDup s p oldfd newfd).1 := by
  rcases capDup_cases s p oldfd newfd with he | ⟨o, k, ho, hk, hv, h0, he⟩
  · rw [he]
    exact .refl hi
  · rw [he]
    by_cases hn : s.fds p o = 0
    · have hf : setSlot s.fds p k 0 = s.fds := by
        funext q j
        rw [setSlot_apply]
        split_ifs with hc
        · rw [hc.1, hc.2, h0]
        · rfl
      simp only [hn, hf, shareNode, if_true]
      have hsame : SameFiles s { s with caps := setSlot s.caps p k (s.caps p o) } :=
        ⟨rfl, rfl, rfl, rfl, rfl⟩
      have ht := hsame.inv hi
      exact ⟨ht, .grow ht (fun n _ => (hsame.referred n).mpr) rfl rfl⟩
    · simp only [shareNode, if_neg hn]
      have hadd : Adds s { s with
          fds := setSlot s.fds p k (s.fds p o)
          node := Function.update s.node (s.fds p o) (nodeCopied (s.node (s.fds p o))) }
          p k (s.fds p o) := adds_copied rfl rfl rfl rfl rfl
      have hgood : ∀ u, SameFiles { s with
          fds := setSlot s.fds p k (s.fds p o)
          node := Function.update s.node (s.fds p o) (nodeCopied (s.node (s.fds p o))) } u →
          Good s u := by
        intro u hu
        apply (hadd.same hu).shared hi h0 (capSlot_lt hk) hn ⟨p, o, rfl⟩ _ (h o k ho hk hv h0)
        simp only [hu.node, Function.update_self]
      exact hgood _ ⟨rfl, rfl, rfl, rfl, rfl⟩

/-! ## Runs -/

theorem close_good (hi : NodesInv s) {fd : ℤ} (h : Balanced s (.close p fd)) :
    Good s (closeFile s p fd).1 := by
  cases hs : capSlot fd with
  | none =>
    have he : closeFile s p fd = (s, 0) := by rw [closeFile, hs]
    rw [he]
    exact .refl hi
  | some i =>
    by_cases hn : s.fds p i = 0
    · have he : closeFile s p fd = (s, -1) := by simp only [closeFile, hs, if_pos hn]
      rw [he]
      exact .refl hi
    · have hc := closeFile_closes hi hs hn
      exact ⟨hc.inv hi hn (h i hs hn), hc.exact hi hn (h i hs hn)⟩

theorem sameFiles_cleanup (s : State) (p : ℕ) : SameFiles s (capCleanupProcess s p) := by
  unfold capCleanupProcess
  generalize List.range FILE_DESC_PER_PROCESS = l
  induction l generalizing s with
  | nil => exact ⟨rfl, rfl, rfl, rfl, rfl⟩
  | cons i l ih =>
    have h := ih (clearSlot s p i)
    exact ⟨h.fds.trans clearSlot_fds, h.next.trans clearSlot_nextNode, h.node.trans clearSlot_node,
      h.freed.trans clearSlot_freed, h.hooks.trans clearSlot_hooks⟩

theorem exit_good (hi : NodesInv s) (h : Balanced s (.exit p)) :
    Good s (auProcessCloseFiles s p) := by
  unfold auProcessCloseFiles
  have hsame := sameFiles_cleanup s p
  have ha : Alone (capCleanupProcess s p) p := by
    intro i
    simp only [Only, hsame.fds, hsame.node]
    intro hn
    exact h i (hi.slot p i hn) hn
  obtain ⟨ht, hs⟩ := closeLoop_shrinks (hsame.inv hi) ha (List.range FILE_DESC_PER_PROCESS)
  refine ⟨ht, hs.exact.safe, ?_, ?_⟩
  · intro n hn hk
    have := hs.exact.freed n hn (by rw [hsame.node]; exact hk)
    rw [hsame.referred, hsame.freed] at this
    exact this
  · intro n hn hk hc
    have := hs.exact.hooks n hn (by rw [hsame.node]; exact hk) (by rw [hsame.node]; exact hc)
    rw [hsame.referred, hsame.hooks] at this
    exact this

theorem NodesInv.step {op : FileOp} (hi : NodesInv s) (h : Balanced s op) :
    Good s (fileStep s op) := by
  cases op with
  | openDevice p n mode driver =>
    simp only [fileStep]
    split_ifs with hn
    · exact openDevice_good hi (Nat.pos_iff_ne_zero.mp hn.1) hn.2.1 hn.2.2 p mode driver
    · exact .refl hi
  | openFresh p copyCount mode =>
    have hc : copyCount = 0 := h
    rw [hc]
    exact openFresh_good hi p mode
  | socket p => exact createSocket_good hi p
  | pass p fileno dest_fdidx proc_id => exact pass_good hi p fileno dest_fdidx proc_id h
  | dup p oldfd newfd => exact dup_good hi h
  | close p fd => exact close_good hi h
  | exit p => exact exit_good hi h

/-- No descriptor is open, and there are `nodes` device nodes. -/
def bootFiles (creds : ℕ → Creds) (nodes : ℕ) (hook : ℕ → Bool) (hw : Hw) : State where
  caps _ _ := default
  fds _ _ := 0
  creds
  node n := ⟨FS_FLAG_DEVICE, 0, 0, 0, hook n⟩
  nextNode := nodes + 1
  refcount _ := 0
  freed _ := 0
  hooks _ := 0
  hw

theorem nodesInv_boot (creds : ℕ → Creds) (nodes : ℕ) (hook : ℕ → Bool) (hw : Hw) :
    NodesInv (bootFiles creds nodes hook hw) where
  fd _ _ := Nat.succ_pos nodes
  slot _ _ h := absurd rfl h
  kind _ _ _ := Or.inl rfl
  safe _ _ _ := rfl
  device _ _ _ := rfl
  fresh _ _ := rfl
  counted n hn _ := by
    rintro ⟨q, j, hq⟩
    exact absurd hq.symm hn

/-- In every run whose steps are balanced, each step frees a file or a socket and runs the
hook of a device just when it takes the last descriptor of the node away, and frees no node
that a descriptor refers to. -/
theorem exec_nodeLifetime (creds : ℕ → Creds) (nodes : ℕ) (hook : ℕ → Bool) (hw : Hw)
    (ops : List FileOp) (h : Respects Balanced fileStep (bootFiles creds nodes hook hw) ops) :
    Respects (fun s op => Exact s (fileStep s op)) fileStep (bootFiles creds nodes hook hw) ops :=
  h.imp (I := NodesInv) (fun _ _ hi ho => hi.step ho) (nodesInv_boot creds nodes hook hw)

/-! ### A device and a file -/

def oneDevice : State := bootFiles (fun _ => ⟨0, 0, []⟩) 1 (fun _ => true) (Hw.boot fun _ => 0)

theorem openDevice_only : Only (run fileStep oneDevice [.openDevice 0 1 0 true]) 0 3 := by
  intro q j hq
  change setSlot (fun _ _ => 0) 0 3 1 q j = 1 at hq
  rw [setSlot_apply] at hq
  split_ifs at hq with hc
  exact hc

def third : Fin FILE_DESC_PER_PROCESS := ⟨3, by decide⟩

/-- A device was opened and closed; a file was opened, passed on and closed by the first process. -/
def passedFile : State := run fileStep oneDevice
  [.openDevice 0 1 0 true, .close 0 3, .openFresh 0 0 0, .pass 0 third third 1, .close 0 3]

/-- The file is freed at the end of the second process. -/
theorem exec_nodeLifetime_passed : Respects (fun s op => Exact s (fileStep s op)) fileStep
    oneDevice [.openDevice 0 1 0 true, .close 0 3, .openFresh 0 0 0, .pass 0 third third 1,
      .close 0 3, .exit 1] := by
  apply exec_nodeLifetime
  refine ⟨trivial, ?_, rfl, ?_, ?_, ?_, trivial⟩
  · intro i hi _ _
    have h3 : 3 = i := Option.some.inj hi
    exact h3 ▸ openDevice_only
  · intro _ _
    decide +kernel
  · intro i hi _ hk
    have h3 : 3 = i := Option.some.inj hi
    rw [← h3] at hk
    exfalso
    revert hk
    decide +kernel
  · have hfile : ∀ i < FILE_DESC_PER_PROCESS, passedFile.fds 1 i ≠ 0 →
        ¬((passedFile.node (passedFile.fds 1 i)).isDevice ∨
          (passedFile.node (passedFile.fds 1 i)).isSocket) := by
      decide +kernel
    intro i hi hn hk
    exact absurd hk (hfile i hi hn)

/-- The hook of a device runs at a close while a second descriptor still refers to it. -/
theorem not_exec_nodeLifetime : ¬∀ (creds : ℕ → Creds) (nodes : ℕ) (hook : ℕ → Bool) (hw : Hw)
    (ops : List FileOp), Respects (fun s op => Exact s (fileStep s op)) fileStep
      (bootFiles creds nodes hook hw) ops := by
  intro h
  have hr := h (fun _ => ⟨0, 0, []⟩) 1 (fun _ => true) (Hw.boot fun _ => 0)
    [.openDevice 0 1 0 true, .openDevice 0 1 0 true, .close 0 3]
  have hx := (hr.2.2.1.hooks 1 (by decide) rfl rfl).2
  have ht : Referred (run fileStep oneDevice [.openDevice 0 1 0 true, .openDevice 0 1 0 true,
      .close 0 3]) 1 := ⟨0, 4, by decide +kernel⟩
  have he := hx fun hc => hc.2 ht
  revert he
  decide +kernel

end Xeneva.Cap
