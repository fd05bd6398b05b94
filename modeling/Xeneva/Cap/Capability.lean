import Xeneva.Cap.HwPci

/-!
# Capability tables

Every process has a table of capabilities beside its table of file descriptors, with one slot
for each descriptor.
-/

namespace Xeneva.Cap

abbrev CapRights := BitVec 32

def CAP_READ : CapRights := 1
def CAP_WRITE : CapRights := 2
def CAP_EXECUTE : CapRights := 4
def CAP_SEEK : CapRights := 8
def CAP_IOCTL : CapRights := 0x10
def CAP_DUP : CapRights := 0x20
def CAP_TRANSFER : CapRights := 0x40
def CAP_HW_CFG : CapRights := 0x80
def CAP_HW_MAP : CapRights := 0x100
def CAP_HW_DMA : CapRights := 0x200
def CAP_HW_IRQ : CapRights := 0x400
def CAP_HW_RIGHTS_MASK : CapRights := CAP_HW_CFG ||| CAP_HW_MAP ||| CAP_HW_DMA ||| CAP_HW_IRQ
def CAP_RIGHTS_NONE : CapRights := 0
def CAP_FILE_RIGHTS_MASK : CapRights :=
  CAP_READ ||| CAP_WRITE ||| CAP_SEEK ||| CAP_IOCTL ||| CAP_DUP ||| CAP_TRANSFER

def CAP_OK : ℤ := 0
def CAP_ERR_INVALID : ℤ := -1

def CAP_OBJ_FILE : UInt8 := 1
def CAP_OBJ_PCIDEV : UInt8 := 2

def CAP_FLAG_NONE : BitVec 16 := 0
def CAP_FLAG_NO_INHERIT : BitVec 16 := 1

def FILE_DESC_PER_PROCESS : ℕ := 60

def FS_FLAG_DIRECTORY : BitVec 16 := 2
def FS_FLAG_GENERAL : BitVec 16 := 4
def FS_FLAG_DEVICE : BitVec 16 := 8
def FS_FLAG_FILE_SYSTEM : BitVec 16 := 0x40
def FS_FLAG_PIPE : BitVec 16 := 0x80
def FS_FLAG_SOCKET : BitVec 16 := 0x200
def FS_FLAG_CACHED : BitVec 16 := 0x800

structure AuCapability where
  object : ℕ
  object_type : UInt8
  rights : CapRights
  owner : ℕ
  flags : BitVec 16
  valid : Bool
deriving DecidableEq

/-- An empty slot. -/
instance : Inhabited AuCapability := ⟨⟨0, 0, CAP_RIGHTS_NONE, 0, CAP_FLAG_NONE, false⟩⟩

/-- An open file; `close` tells whether it has a close hook. -/
structure AuVFSNode where
  flags : BitVec 16
  fileCopyCount : ℕ
  device : ℕ
  private_data : ℕ
  close : Bool
deriving DecidableEq

instance : Inhabited AuVFSNode := ⟨⟨0, 0, 0, 0, false⟩⟩

structure Creds where
  uid : ℕ
  gid : ℕ
  sgid : List ℕ

/-- The tables of the processes; `refcount` is that of the pipe at an address. Nodes are
numbered as they are allocated, 0 is `NULL`; `freed` and `hooks` count how often a node was
freed and its close hook was run. -/
structure State where
  caps : ℕ → ℕ → AuCapability
  fds : ℕ → ℕ → ℕ
  creds : ℕ → Creds
  node : ℕ → AuVFSNode
  nextNode : ℕ
  refcount : ℕ → ℕ
  freed : ℕ → ℕ
  hooks : ℕ → ℕ
  hw : Hw

/-- A table with one slot of one process changed. -/
def setSlot {α : Type} (f : ℕ → ℕ → α) (p i : ℕ) (a : α) : ℕ → ℕ → α :=
  fun q j => if q = p ∧ j = i then a else f q j

theorem setSlot_apply {α : Type} (f : ℕ → ℕ → α) (p i : ℕ) (a : α) (q j : ℕ) :
    setSlot f p i a q j = if q = p ∧ j = i then a else f q j := rfl

@[simp] theorem setSlot_self {α : Type} (f : ℕ → ℕ → α) (p i : ℕ) (a : α) :
    setSlot f p i a p i = a := if_pos ⟨rfl, rfl⟩

/-- The slot that a descriptor names. -/
def capSlot (fd : ℤ) : Option ℕ :=
  if 0 ≤ fd ∧ fd < FILE_DESC_PER_PROCESS then some fd.toNat else none

/-- The rights that a fresh capability gets of those asked for. -/
def mintRights (type : UInt8) (rights : CapRights) : CapRights :=
  if type = CAP_OBJ_FILE then rights &&& CAP_FILE_RIGHTS_MASK
  else if type = CAP_OBJ_PCIDEV then rights &&& CAP_HW_RIGHTS_MASK
  else CAP_RIGHTS_NONE

def capCreate (s : State) (p : ℕ) (fd : ℤ) (object : ℕ) (type : UInt8) (rights : CapRights) :
    State × ℤ :=
  match capSlot fd with
  | none => (s, CAP_ERR_INVALID)
  | some i =>
    if object = 0 then (s, CAP_ERR_INVALID)
    else
      let cap : AuCapability := {
        object
        object_type := type
        rights := mintRights type rights
        owner := (s.creds p).uid
        flags := if type = CAP_OBJ_PCIDEV then CAP_FLAG_NO_INHERIT else CAP_FLAG_NONE
        valid := true }
      ({ s with caps := setSlot s.caps p i cap }, CAP_OK)

/-- The slot of a descriptor that holds a capability. -/
def capLookup (s : State) (p : ℕ) (fd : ℤ) : Option ℕ :=
  (capSlot fd).filter fun i => (s.caps p i).valid

def capCheckRights (s : State) (p : ℕ) (fd : ℤ) (required : CapRights) : Bool :=
  match capLookup s p fd with
  | none => false
  | some i => (s.caps p i).rights &&& required = required

def nodeCopied (file : AuVFSNode) : AuVFSNode :=
  { file with fileCopyCount := (file.fileCopyCount + 1) % 2 ^ 16 }

/-- One more descriptor refers to the node; a pipe counts its descriptors too. -/
def shareNode (s : State) (n : ℕ) : State :=
  if n = 0 then s
  else { s with
    node := Function.update s.node n (nodeCopied (s.node n))
    refcount :=
      if (s.node n).flags &&& FS_FLAG_PIPE ≠ 0 ∧ (s.node n).device ≠ 0 then
        Function.update s.refcount (s.node n).device ((s.refcount (s.node n).device + 1) % 2 ^ 64)
      else s.refcount }

def capDup (s : State) (p : ℕ) (oldfd newfd : ℤ) : State × ℤ :=
  match capLookup s p oldfd, capSlot newfd with
  | some o, some n =>
    if (s.caps p n).valid then (s, CAP_ERR_INVALID)
    else if s.fds p n ≠ 0 then (s, CAP_ERR_INVALID)
    else
      let s := shareNode { s with fds := setSlot s.fds p n (s.fds p o) } (s.fds p o)
      ({ s with caps := setSlot s.caps p n { s.caps p o with valid := true } }, CAP_OK)
  | _, _ => (s, CAP_ERR_INVALID)

def capRestrict (s : State) (p : ℕ) (fd : ℤ) (new_rights : CapRights) : State × ℤ :=
  match capLookup s p fd with
  | none => (s, CAP_ERR_INVALID)
  | some i =>
    let cap := s.caps p i
    ({ s with caps := setSlot s.caps p i { cap with rights := cap.rights &&& new_rights } }, CAP_OK)

/-- Empties a slot; a device object is released first. -/
def clearSlot (s : State) (p i : ℕ) : State :=
  if (s.caps p i).valid then
    let s := if (s.caps p i).object_type = CAP_OBJ_PCIDEV then
        { s with hw := auHwdevCapReleased s.hw (s.caps p i).object }
      else s
    { s with caps := setSlot s.caps p i default }
  else s

def capDestroy (s : State) (p : ℕ) (fd : ℤ) : State :=
  match capSlot fd with
  | none => s
  | some i => clearSlot s p i

def capCleanupProcess (s : State) (p : ℕ) : State :=
  (List.range FILE_DESC_PER_PROCESS).foldl (fun s i => clearSlot s p i) s

/-- The child gets the parent's capability of one slot. -/
def inheritSlot (s : State) (parent child i : ℕ) : State :=
  let src := s.caps parent i
  if !src.valid then s
  else if src.flags &&& CAP_FLAG_NO_INHERIT ≠ 0 then s
  else if s.fds child i = 0 then s
  else
    { s with caps := setSlot s.caps child i { src with owner := (s.creds child).uid, valid := true } }

def capInheritTable (s : State) (parent child : ℕ) : State :=
  (List.range FILE_DESC_PER_PROCESS).foldl (fun s i => inheritSlot s parent child i) s

/-! ## Frames -/

variable {s : State} {p q i j n : ℕ} {fd : ℤ}

theorem capSlot_lt (h : capSlot fd = some i) : i < FILE_DESC_PER_PROCESS := by
  unfold capSlot at h
  split at h
  · case isTrue hfd =>
    cases h
    omega
  · cases h

theorem capLookup_eq_some :
    capLookup s p fd = some i ↔ capSlot fd = some i ∧ (s.caps p i).valid = true := by
  simp [capLookup, Option.filter_eq_some_iff]

@[simp] theorem shareNode_caps : (shareNode s n).caps = s.caps := by
  unfold shareNode
  split_ifs <;> rfl

@[simp] theorem shareNode_fds : (shareNode s n).fds = s.fds := by
  unfold shareNode
  split_ifs <;> rfl

@[simp] theorem shareNode_hw : (shareNode s n).hw = s.hw := by
  unfold shareNode
  split_ifs <;> rfl

@[simp] theorem shareNode_nextNode : (shareNode s n).nextNode = s.nextNode := by
  unfold shareNode
  split_ifs <;> rfl

@[simp] theorem shareNode_private (k : ℕ) :
    ((shareNode s n).node k).private_data = (s.node k).private_data := by
  by_cases hn : n = 0
  · rw [shareNode, if_pos hn]
  · rw [shareNode, if_neg hn]
    by_cases hk : k = n
    · simp [hk, nodeCopied]
    · simp [hk]

/-- Emptying a slot, table by table. -/
theorem clearSlot_caps : (clearSlot s p i).caps q j =
    if q = p ∧ j = i ∧ (s.caps p i).valid then default else s.caps q j := by
  unfold clearSlot
  by_cases hv : (s.caps p i).valid
  · simp only [hv, if_true, and_true]
    split_ifs <;> simp_all [setSlot_apply]
  · simp [hv]

@[simp] theorem clearSlot_fds : (clearSlot s p i).fds = s.fds := by
  unfold clearSlot
  split_ifs <;> rfl

@[simp] theorem clearSlot_node : (clearSlot s p i).node = s.node := by
  unfold clearSlot
  split_ifs <;> rfl

@[simp] theorem clearSlot_nextNode : (clearSlot s p i).nextNode = s.nextNode := by
  unfold clearSlot
  split_ifs <;> rfl

@[simp] theorem clearSlot_freed : (clearSlot s p i).freed = s.freed := by
  unfold clearSlot
  split_ifs <;> rfl

@[simp] theorem clearSlot_hooks : (clearSlot s p i).hooks = s.hooks := by
  unfold clearSlot
  split_ifs <;> rfl

theorem clearSlot_hw : (clearSlot s p i).hw =
    if (s.caps p i).valid ∧ (s.caps p i).object_type = CAP_OBJ_PCIDEV then
      auHwdevCapReleased s.hw (s.caps p i).object
    else s.hw := by
  unfold clearSlot
  split_ifs <;> simp_all

/-- The slots that a child gets from its parent. -/
def Inherits (s : State) (parent child i : ℕ) : Prop :=
  (s.caps parent i).valid ∧ (s.caps parent i).flags &&& CAP_FLAG_NO_INHERIT = 0 ∧
    s.fds child i ≠ 0

instance (s : State) (parent child i : ℕ) : Decidable (Inherits s parent child i) :=
  inferInstanceAs (Decidable (_ ∧ _))

/-- The capability that a child gets. -/
def inherited (s : State) (parent child i : ℕ) : AuCapability :=
  { s.caps parent i with owner := (s.creds child).uid, valid := true }

theorem inheritSlot_eq {parent child : ℕ} : inheritSlot s parent child i =
    if Inherits s parent child i then
      { s with caps := setSlot s.caps child i (inherited s parent child i) }
    else s := by
  unfold inheritSlot
  by_cases hv : (s.caps parent i).valid
  · by_cases hf : (s.caps parent i).flags &&& CAP_FLAG_NO_INHERIT = 0
    · by_cases hd : s.fds child i = 0
      · simp [hv, hf, hd, Inherits]
      · simp [hv, hf, hd, Inherits, inherited]
    · have hf' : ¬(s.caps parent i).flags &&& CAP_FLAG_NO_INHERIT = 0#16 := hf
      simp [hv, hf', Inherits]
  · simp [hv, Inherits]

/-- The loop over the first `n` slots writes no slot before it reads it. -/
theorem inheritLoop_eq {parent child : ℕ} (n : ℕ) :
    (List.range n).foldl (fun s i => inheritSlot s parent child i) s = { s with
      caps := fun q j => if q = child ∧ j < n ∧ Inherits s parent child j then
        inherited s parent child j else s.caps q j } := by
  induction n with
  | zero => simp
  | succ n ih =>
    rw [List.range_succ, List.foldl_append, ih, List.foldl_cons, List.foldl_nil]
    obtain ⟨t, ht⟩ : ∃ t : State, t = { s with
      caps := fun q j => if q = child ∧ j < n ∧ Inherits s parent child j then
        inherited s parent child j else s.caps q j } := ⟨_, rfl⟩
    have hc : t.caps parent n = s.caps parent n := by
      rw [ht]
      exact if_neg fun h => lt_irrefl n h.2.1
    have hi : Inherits t parent child n ↔ Inherits s parent child n := by
      rw [Inherits, Inherits, hc, ht]
    have hm : inherited t parent child n = inherited s parent child n := by
      rw [inherited, inherited, hc, ht]
    rw [← ht, inheritSlot_eq, hm, ht]
    rw [ht] at hi
    by_cases h : Inherits s parent child n
    · rw [if_pos (hi.mpr h)]
      congr 1
      funext q j
      by_cases hj : j = n
      · simp [setSlot_apply, hj, h]
      · have hlt : j < n + 1 ↔ j < n := by omega
        simp [setSlot_apply, hj, hlt]
    · rw [if_neg (mt hi.mp h)]
      congr 1
      funext q j
      by_cases hj : j = n
      · simp [hj, h]
      · have hlt : j < n + 1 ↔ j < n := by omega
        simp [hlt]

theorem capInheritTable_eq {parent child : ℕ} : capInheritTable s parent child = { s with
    caps := fun q j => if q = child ∧ j < FILE_DESC_PER_PROCESS ∧ Inherits s parent child j then
      inherited s parent child j else s.caps q j } :=
  inheritLoop_eq _

theorem clearLoop_caps (n : ℕ) :
    ((List.range n).foldl (fun s i => clearSlot s p i) s).caps q j =
      if q = p ∧ j < n ∧ (s.caps q j).valid then default else s.caps q j := by
  induction n generalizing q j with
  | zero => simp
  | succ n ih =>
    rw [List.range_succ, List.foldl_append, List.foldl_cons, List.foldl_nil, clearSlot_caps,
      ih (q := p) (j := n), ih]
    have hn : ¬(p = p ∧ n < n ∧ (s.caps p n).valid) := fun h => lt_irrefl n h.2.1
    rw [if_neg hn]
    by_cases hj : q = p ∧ j = n
    · simp [hj]
    · have hlt : q = p ∧ j < n + 1 ∧ (s.caps q j).valid ↔ q = p ∧ j < n ∧ (s.caps q j).valid := by
        constructor
        · intro ⟨hq, h, hv⟩
          exact ⟨hq, by omega, hv⟩
        · intro ⟨hq, h, hv⟩
          exact ⟨hq, by omega, hv⟩
      have hp : ¬(q = p ∧ j = n ∧ (s.caps p n).valid) := fun h => hj ⟨h.1, h.2.1⟩
      rw [if_neg hp]
      exact if_congr hlt.symm rfl rfl

theorem capCreate_cases (s : State) (p : ℕ) (fd : ℤ) (object : ℕ) (type : UInt8)
    (rights : CapRights) : capCreate s p fd object type rights = (s, CAP_ERR_INVALID) ∨
    ∃ i, capSlot fd = some i ∧ object ≠ 0 ∧
      capCreate s p fd object type rights = ({ s with caps := setSlot s.caps p i {
        object
        object_type := type
        rights := mintRights type rights
        owner := (s.creds p).uid
        flags := if type = CAP_OBJ_PCIDEV then CAP_FLAG_NO_INHERIT else CAP_FLAG_NONE
        valid := true } }, CAP_OK) := by
  unfold capCreate
  cases hi : capSlot fd with
  | none => exact Or.inl rfl
  | some i =>
    by_cases ho : object = 0
    · exact Or.inl (if_pos ho)
    · exact Or.inr ⟨i, rfl, ho, if_neg ho⟩

/-- A duplicate is refused, or is made in an empty slot whose descriptor was free. -/
theorem capDup_cases (s : State) (p : ℕ) (oldfd newfd : ℤ) :
    capDup s p oldfd newfd = (s, CAP_ERR_INVALID) ∨
    ∃ o n, capLookup s p oldfd = some o ∧ capSlot newfd = some n ∧ (s.caps p n).valid = false ∧
      s.fds p n = 0 ∧ capDup s p oldfd newfd = ({ shareNode { s with
          fds := setSlot s.fds p n (s.fds p o) } (s.fds p o) with
        caps := setSlot s.caps p n (s.caps p o) }, CAP_OK) := by
  unfold capDup
  cases ho : capLookup s p oldfd with
  | none => exact Or.inl rfl
  | some o =>
    cases hn : capSlot newfd with
    | none => exact Or.inl rfl
    | some n =>
      by_cases hv : (s.caps p n).valid
      · exact Or.inl (if_pos hv)
      · by_cases hf : s.fds p n = 0
        · refine Or.inr ⟨o, n, rfl, rfl, by simpa using hv, hf, ?_⟩
          have hvo : { s.caps p o with valid := true } = s.caps p o := by
            rw [← (capLookup_eq_some.mp ho).2]
          simp only [hv, hf, shareNode_caps, hvo]
          simp
        · exact Or.inl ((if_neg hv).trans (if_pos hf))

theorem capRestrict_cases (s : State) (p : ℕ) (fd : ℤ) (new_rights : CapRights) :
    capRestrict s p fd new_rights = (s, CAP_ERR_INVALID) ∨
    ∃ i, capLookup s p fd = some i ∧ capRestrict s p fd new_rights = ({ s with
      caps := setSlot s.caps p i
        { s.caps p i with rights := (s.caps p i).rights &&& new_rights } }, CAP_OK) := by
  unfold capRestrict
  cases hi : capLookup s p fd with
  | none => exact Or.inl rfl
  | some i => exact Or.inr ⟨i, rfl, rfl⟩

end Xeneva.Cap

/-!
# File descriptors

How descriptors are given out, passed to another process and closed. Every kind of node has
its own way to be closed, and closing one descriptor differs from the end of a process.
-/

namespace Xeneva.Cap

/-- The node has one of the flags. -/
def AuVFSNode.has (file : AuVFSNode) (flag : BitVec 16) : Bool := file.flags &&& flag ≠ 0

/-- Descriptors 0, 1 and 2 are the terminal's. -/
def auProcessGetFileDesc (fds : ℕ → ℕ) : Option ℕ :=
  (List.range' 3 (FILE_DESC_PER_PROCESS - 6)).find? fun i => fds i = 0

theorem auProcessGetFileDesc_spec {fds : ℕ → ℕ} {i : ℕ} (h : auProcessGetFileDesc fds = some i) :
    i < FILE_DESC_PER_PROCESS ∧ fds i = 0 := by
  have hm := List.mem_of_find?_eq_some h
  have hp := List.find?_some h
  rw [List.mem_range'_1, FILE_DESC_PER_PROCESS] at hm
  refine ⟨?_, by simpa using hp⟩
  rw [FILE_DESC_PER_PROCESS]
  omega

def countDown (s : State) (n : ℕ) : State :=
  let file := s.node n
  { s with node := Function.update s.node n { file with fileCopyCount := file.fileCopyCount - 1 } }

def kfreeNode (s : State) (n : ℕ) : State :=
  { s with freed := Function.update s.freed n (s.freed n + 1) }

def runHook (s : State) (n : ℕ) : State :=
  if (s.node n).close then { s with hooks := Function.update s.hooks n (s.hooks n + 1) } else s

/-- A socket's close hook frees its node. -/
def socketClose (s : State) (n : ℕ) : State :=
  if (s.node n).close then kfreeNode (runHook s n) n else s

/-- The last descriptor of a pipe takes its buffer with it. -/
def auPipeClose (s : State) (n : ℕ) : State :=
  let pipe := (s.node n).device
  if pipe = 0 ∨ s.refcount pipe = 0 then s
  else { s with
    refcount := Function.update s.refcount pipe (s.refcount pipe - 1)
    node :=
      if s.refcount pipe = 1 then Function.update s.node n { s.node n with device := 0 }
      else s.node }

def dropNode (s : State) (n : ℕ) : State :=
  if (s.node n).fileCopyCount = 0 then kfreeNode s n else countDown s n

/-- A descriptor and its capability are cleared. -/
def clearDesc (s : State) (p i : ℕ) : State :=
  clearSlot { s with fds := setSlot s.fds p i 0 } p i

def closeFile (s : State) (p : ℕ) (fd : ℤ) : State × ℤ :=
  match capSlot fd with
  | none => (s, 0)
  | some i =>
    let n := s.fds p i
    let file := s.node n
    if n = 0 then (s, -1)
    else if file.has FS_FLAG_FILE_SYSTEM then (clearDesc s p i, -1)
    else if file.has FS_FLAG_CACHED then (clearDesc s p i, 0)
    else if file.has FS_FLAG_DEVICE then (runHook (clearDesc s p i) n, 0)
    else if file.has FS_FLAG_GENERAL then (dropNode (clearDesc s p i) n, 0)
    else if file.has FS_FLAG_DIRECTORY then (dropNode (clearDesc s p i) n, 0)
    else if file.has FS_FLAG_PIPE then
      (clearDesc (if file.close then auPipeClose s n else s) p i, 0)
    else if file.has FS_FLAG_SOCKET then (socketClose (clearDesc s p i) n, 0)
    else (s, -1)

/-- A device node's hook runs, and it has one descriptor less. -/
def auDevFSNodeClose (s : State) (n : ℕ) : State :=
  if (s.node n).fileCopyCount = 0 then runHook s n else countDown (runHook s n) n

/-- One turn of the loop over the descriptors of a process that ends. -/
def closeSlot (s : State) (p i : ℕ) : State :=
  let n := s.fds p i
  let file := s.node n
  if n = 0 then s
  else
    let s := { s with fds := setSlot s.fds p i 0 }
    if file.has FS_FLAG_CACHED then countDown s n
    else if file.has FS_FLAG_DEVICE then auDevFSNodeClose s n
    else if file.has FS_FLAG_FILE_SYSTEM then s
    else if file.has (FS_FLAG_GENERAL ||| FS_FLAG_DIRECTORY) then
      if file.fileCopyCount = 0 then
        -- the process may have the node more than once
        kfreeNode { s with fds := fun q j =>
          if q = p ∧ i < j ∧ j < FILE_DESC_PER_PROCESS ∧ s.fds q j = n then 0 else s.fds q j } n
      else countDown s n
    else if file.has FS_FLAG_SOCKET then socketClose s n
    else s

def auProcessCloseFiles (s : State) (p : ℕ) : State :=
  (List.range FILE_DESC_PER_PROCESS).foldl (fun s i => closeSlot s p i) (capCleanupProcess s p)

def auDevFSNodeOpen (s : State) (n : ℕ) (driver : Bool) : State × Bool :=
  let file := s.node n
  if n = 0 ∨ !file.has FS_FLAG_DEVICE ∨ file.fileCopyCount = 2 ^ 16 - 1 then (s, false)
  else if file.fileCopyCount = 0 ∧ !driver then (s, false)
  else ({ s with node := Function.update s.node n (nodeCopied file) }, true)

def FILE_OPEN_READ_ONLY : BitVec 32 := 2
def FILE_OPEN_WRITE : BitVec 32 := 4
def FILE_OPEN_CREAT : BitVec 32 := 8

/-- The rights that a mode asks for. -/
def openRights (mode : BitVec 32) : CapRights :=
  CAP_SEEK |||
    (if mode &&& FILE_OPEN_READ_ONLY ≠ 0 then CAP_READ ||| CAP_WRITE else 0) |||
    (if mode &&& (FILE_OPEN_WRITE ||| FILE_OPEN_CREAT) ≠ 0 then CAP_WRITE else 0) |||
    (if mode = 0 then CAP_READ else 0)

/-- `OpenFile` once the node is found; `driver` tells whether the driver of a device can be
kept. -/
def openFile (s : State) (p n : ℕ) (mode : BitVec 32) (driver : Bool) : State × ℤ :=
  match auProcessGetFileDesc (s.fds p) with
  | none => (s, -1)
  | some fd =>
    let (s, ok) := if (s.node n).has FS_FLAG_DEVICE then auDevFSNodeOpen s n driver else (s, true)
    if !ok then (s, -1)
    else
      let s := { s with fds := setSlot s.fds p fd n }
      ((capCreate s p fd n CAP_OBJ_FILE (openRights mode)).1, fd)

/-- A descriptor is passed on; the source checks neither index against its table. -/
def setFileToProcess (s : State) (p : ℕ) (fileno dest_fdidx : Fin FILE_DESC_PER_PROCESS)
    (proc_id : ℕ) : State × ℤ :=
  let n := s.fds p fileno
  if n = 0 then (s, -1)
  else if s.fds proc_id dest_fdidx ≠ 0 then (s, -1)
  else
    let s := { s with
      fds := setSlot s.fds proc_id dest_fdidx n
      node := Function.update s.node n (nodeCopied (s.node n)) }
    match capLookup s p fileno with
    | none => (s, 0)
    | some i =>
      let src := s.caps p i
      if src.flags &&& CAP_FLAG_NO_INHERIT ≠ 0 then (s, 0)
      else ((capCreate s proc_id dest_fdidx n src.object_type src.rights).1, 0)

end Xeneva.Cap
