import Xeneva.Cap.DevhwOnce

/-!
# What a driver process reaches

A driver maps registers of its device, and the kernel asks whether an address is in the DMA
memory of a process before it lets a server or a device have it.
-/

namespace Xeneva.Cap

open Xeneva.Base

variable {hw : Hw} {s t u : State} {B : Platform} {p q i j h k n : ℕ} {fd : ℤ}

/-- The test of one buffer. -/
def HwDma.covers (d : HwDma) (phys len : UInt64) : Bool :=
  d.phys ≤ phys.toNat && (phys + len).toNat ≤ (d.phys + d.pages * 4096) % 2 ^ 64

/-- `proc` is `none` where it is `NULL`. -/
def auHwdevOwnsDma (s : State) (proc : Option ℕ) (phys len : UInt64) : Bool :=
  match proc with
  | none => false
  | some p =>
    if len = 0 ∨ phys + len < phys then false
    else (List.range FILE_DESC_PER_PROCESS).any fun i =>
      let cap := s.caps p i
      cap.valid && cap.object_type = CAP_OBJ_PCIDEV && cap.object ≠ 0 &&
        (s.hw.obj cap.object).dmas.any fun d => d.covers phys len

/-- The device object of a descriptor, 0 if there is none. -/
def hwHandleFor (s : State) (proc : Option ℕ) (fd : ℤ) : ℕ :=
  match proc, capSlot fd with
  | some p, some i =>
    if s.fds p i = 0 then 0
    else match hwCapFor s p (s.fds p i) with
      | none => 0
      | some j => (s.caps p j).object
  | _, _ => 0

def auHwdevHandleOwnsDma (s : State) (proc : Option ℕ) (fd : ℤ) (phys len : UInt64) : Bool :=
  let h := hwHandleFor s proc fd
  if h = 0 ∨ len = 0 ∨ phys + len < phys then false
  else (s.hw.obj h).dmas.any fun d => d.covers phys len

/-- The range is not empty, ends within the address space and lies in the buffer. -/
structure HwDma.Holds (d : HwDma) (phys len : UInt64) : Prop where
  pos : 0 < len.toNat
  wrap : phys.toNat + len.toNat < 2 ^ 64
  start : d.phys ≤ phys.toNat
  stop : phys.toNat + len.toNat ≤ d.phys + d.pages * 4096

theorem HwDma.holds_of_covers {d : HwDma} {phys len : UInt64} (hd : d.covers phys len)
    (hwrap : ¬(len = 0 ∨ phys + len < phys)) : d.Holds phys len := by
  have hp := phys.toNat_lt
  have hl := len.toNat_lt
  rw [not_or, ← UInt64.toNat_inj, UInt64.lt_iff_toNat_lt, UInt64.toNat_add] at hwrap
  unfold covers at hd
  rw [Bool.and_eq_true, decide_eq_true_eq, decide_eq_true_eq, UInt64.toNat_add] at hd
  have hmod := Nat.mod_le (d.phys + d.pages * 4096) (2 ^ 64)
  have hzero : (0 : UInt64).toNat = 0 := rfl
  have hsum : phys.toNat + len.toNat < 2 ^ 64 := by omega
  rw [Nat.mod_eq_of_lt hsum] at hd
  exact ⟨by omega, hsum, hd.1, by omega⟩

theorem ownsDma_holds {phys len : UInt64} (ho : auHwdevOwnsDma s (some p) phys len) :
    ∃ i h, Refers s p i h ∧ ∃ d ∈ (s.hw.obj h).dmas, d.Holds phys len := by
  unfold auHwdevOwnsDma at ho
  dsimp only at ho
  by_cases hwrap : len = 0 ∨ phys + len < phys
  · rw [if_pos hwrap] at ho
    exact absurd ho Bool.false_ne_true
  · rw [if_neg hwrap, List.any_eq_true] at ho
    obtain ⟨i, -, hi⟩ := ho
    simp only [Bool.and_eq_true, decide_eq_true_eq, List.any_eq_true] at hi
    obtain ⟨⟨⟨hv, ht⟩, -⟩, d, hd, hc⟩ := hi
    exact ⟨i, _, ⟨hv, ht, rfl⟩, d, hd, HwDma.holds_of_covers hc hwrap⟩

theorem handleOwnsDma_holds {phys len : UInt64}
    (ho : auHwdevHandleOwnsDma s (some p) fd phys len) :
    ∃ i h, Refers s p i h ∧ ∃ d ∈ (s.hw.obj h).dmas, d.Holds phys len := by
  unfold auHwdevHandleOwnsDma at ho
  dsimp only at ho
  by_cases hwrap : hwHandleFor s (some p) fd = 0 ∨ len = 0 ∨ phys + len < phys
  · rw [if_pos hwrap] at ho
    exact absurd ho Bool.false_ne_true
  · rw [if_neg hwrap, List.any_eq_true] at ho
    obtain ⟨d, hd, hc⟩ := ho
    rw [not_or] at hwrap
    suffices hr : ∃ i, Refers s p i (hwHandleFor s (some p) fd) by
      obtain ⟨i, hr⟩ := hr
      exact ⟨i, _, hr, d, hd, HwDma.holds_of_covers hc hwrap.2⟩
    have hne := hwrap.1
    unfold hwHandleFor at hne ⊢
    cases hs : capSlot fd with
    | none =>
      rw [hs] at hne
      exact absurd rfl hne
    | some i =>
      rw [hs] at hne
      dsimp only at hne ⊢
      by_cases hz : s.fds p i = 0
      · exact absurd (if_pos hz) hne
      rw [if_neg hz] at hne ⊢
      cases hc : hwCapFor s p (s.fds p i) with
      | none =>
        rw [hc] at hne
        exact absurd rfl hne
      | some j => exact ⟨j, (hwCapFor_spec hc).2⟩

/-! ## Who allocated the buffers -/

/-- A device capability is its process's own, and is not passed on. -/
structure Owned (s : State) : Prop where
  opened : ∀ p i h, Refers s p i h → h < s.hw.next
  owner : ∀ p i h, Refers s p i h → (s.hw.obj h).owner = p
  flag : ∀ p i h, Refers s p i h → (s.caps p i).flags &&& CAP_FLAG_NO_INHERIT ≠ 0

/-- No process gets a device, and no object another owner. -/
structure Follows (s t : State) : Prop where
  refers : ∀ p i h, Refers t p i h →
    ∃ j, Refers s p j h ∧ (t.caps p i).flags = (s.caps p j).flags
  owner : ∀ h, (t.hw.obj h).owner = (s.hw.obj h).owner
  next : t.hw.next = s.hw.next

theorem Follows.of_eq (hc : t.caps = s.caps) (hh : t.hw = s.hw) : Follows s t where
  refers p i h hr := by
    rw [Refers, hc] at hr
    exact ⟨i, hr, by rw [hc]⟩
  owner h := by rw [hh]
  next := by rw [hh]

theorem Follows.refl (s : State) : Follows s s := .of_eq rfl rfl

theorem Follows.trans (h : Follows s t) (h' : Follows t u) : Follows s u where
  refers p i k hr := by
    obtain ⟨j, hj, he⟩ := h'.refers p i k hr
    obtain ⟨l, hl, he'⟩ := h.refers p j k hj
    exact ⟨l, hl, he.trans he'⟩
  owner k := (h'.owner k).trans (h.owner k)
  next := h'.next.trans h.next

theorem Keeps.follows (hk : Keeps s t) : Follows s t := .of_eq hk.caps hk.hw

theorem Owned.follows (ho : Owned s) (hf : Follows s t) : Owned t where
  opened p i h hr := by
    obtain ⟨j, hj, -⟩ := hf.refers p i h hr
    rw [hf.next]
    exact ho.opened p j h hj
  owner p i h hr := by
    obtain ⟨j, hj, -⟩ := hf.refers p i h hr
    rw [hf.owner]
    exact ho.owner p j h hj
  flag p i h hr := by
    obtain ⟨j, hj, he⟩ := hf.refers p i h hr
    rw [he]
    exact ho.flag p j h hj

/-- A slot gets a capability that is for no device, or one that the process has already. -/
theorem follows_setCaps {caps : ℕ → ℕ → AuCapability}
    (hc : ∀ q j, caps q j = s.caps q j ∨ (caps q j).object_type ≠ CAP_OBJ_PCIDEV ∨
      ∃ k, (s.caps q k).valid ∧ (caps q j).object_type = (s.caps q k).object_type ∧
        (caps q j).object = (s.caps q k).object ∧ (caps q j).flags = (s.caps q k).flags) :
    Follows s { s with caps } where
  refers p i h hr := by
    rcases hc p i with he | ht | ⟨k, hv, ht, hob, hfl⟩
    · simp only [Refers, he] at hr
      exact ⟨i, hr, congrArg AuCapability.flags he⟩
    · exact absurd hr.2.1 ht
    · exact ⟨k, ⟨hv, ht ▸ hr.2.1, hob ▸ hr.2.2⟩, hfl⟩
  owner _ := rfl
  next := rfl

theorem follows_create (s : State) (p : ℕ) (fd : ℤ) (object : ℕ) {type : UInt8}
    (rights : CapRights) (ht : type ≠ CAP_OBJ_PCIDEV) :
    Follows s (capCreate s p fd object type rights).1 := by
  rcases capCreate_cases s p fd object type rights with he | ⟨i, -, -, he⟩
  · rw [he]
    exact Follows.refl s
  · rw [he]
    apply follows_setCaps
    intro q j
    rw [setSlot_apply]
    by_cases hc : q = p ∧ j = i
    · rw [if_pos hc]
      exact .inr (.inl ht)
    · rw [if_neg hc]
      exact .inl rfl

theorem released_owner (hw : Hw) (h k : ℕ) :
    ((auHwdevCapReleased hw h).obj k).owner = (hw.obj k).owner := by
  unfold auHwdevCapReleased
  split_ifs
  · rfl
  · dsimp only
    rw [dropInterrupt_eq]
    dsimp only [hwStopDevice]
    by_cases hk : k = h
    · rw [hk, Function.update_self]
    · rw [Function.update_of_ne hk]

theorem released_next (hw : Hw) (h : ℕ) : (auHwdevCapReleased hw h).next = hw.next := by
  unfold auHwdevCapReleased
  split_ifs
  · rfl
  · dsimp only
    rw [dropInterrupt_eq]
    rfl

theorem follows_clearSlot (s : State) (p i : ℕ) : Follows s (clearSlot s p i) where
  refers q j h hr := by
    rw [refers_clearSlot] at hr
    refine ⟨j, hr.1, ?_⟩
    rw [clearSlot_caps, if_neg fun hc => hr.2 ⟨hc.1, hc.2.1⟩]
  owner h := by
    rw [clearSlot_hw]
    split_ifs
    · exact released_owner ..
    · rfl
  next := by
    rw [clearSlot_hw]
    split_ifs
    · exact released_next ..
    · rfl

theorem follows_clearDesc (s : State) (p i : ℕ) : Follows s (clearDesc s p i) := by
  have h0 : Follows s { s with fds := setSlot s.fds p i 0 } := .of_eq rfl rfl
  exact h0.trans (follows_clearSlot _ p i)

theorem follows_closeFile (s : State) (p : ℕ) (fd : ℤ) : Follows s (closeFile s p fd).1 := by
  unfold closeFile
  split
  · exact Follows.refl s
  · case h_2 i _ =>
    have hc := follows_clearDesc s p i
    simp only
    split_ifs
    · exact Follows.refl s
    · exact hc
    · exact hc
    · exact hc.trans (keeps_runHook _ _).follows
    · exact hc.trans (keeps_dropNode _ _).follows
    · exact hc.trans (keeps_dropNode _ _).follows
    · exact (keeps_auPipeClose s _).follows.trans (follows_clearDesc _ p i)
    · exact hc
    · exact hc.trans (keeps_socketClose _ _).follows
    · exact Follows.refl s

theorem follows_closeSlot (s : State) (p i : ℕ) : Follows s (closeSlot s p i) := by
  have h0 : Follows s { s with fds := setSlot s.fds p i 0 } := .of_eq rfl rfl
  unfold closeSlot
  simp only
  split_ifs
  · exact Follows.refl s
  · exact h0.trans (keeps_countDown _ _).follows
  · exact h0.trans (keeps_auDevFSNodeClose _ _).follows
  · exact h0
  · exact .of_eq rfl rfl
  · exact h0.trans (keeps_countDown _ _).follows
  · exact h0.trans (keeps_socketClose _ _).follows
  · exact h0

theorem follows_fold {step : State → ℕ → State} (hstep : ∀ s i, Follows s (step s i)) (s : State)
    (l : List ℕ) : Follows s (l.foldl step s) := by
  induction l generalizing s with
  | nil => exact Follows.refl s
  | cons i l ih => exact (hstep s i).trans (ih _)

theorem follows_closeFiles (s : State) (p : ℕ) : Follows s (auProcessCloseFiles s p) :=
  (follows_fold (fun s i => follows_clearSlot s p i) s _).trans
    (follows_fold (fun s i => follows_closeSlot s p i) _ _)

theorem follows_openFile (s : State) (p n : ℕ) (mode : BitVec 32) (driver : Bool) :
    Follows s (openFile s p n mode driver).1 := by
  have hk : Keeps s (if (s.node n).has FS_FLAG_DEVICE then auDevFSNodeOpen s n driver
      else (s, true)).1 := by
    split_ifs
    · exact keeps_auDevFSNodeOpen s n driver
    · exact Keeps.refl s
  unfold openFile
  cases hfd : auProcessGetFileDesc (s.fds p) with
  | none => exact Follows.refl s
  | some fd =>
    simp only
    generalize (if (s.node n).has FS_FLAG_DEVICE then auDevFSNodeOpen s n driver
        else (s, true)) = r at hk
    obtain ⟨t, ok⟩ := r
    dsimp only at hk ⊢
    split_ifs
    · exact hk.follows
    · have hfd : Follows t { t with fds := setSlot t.fds p fd n } := .of_eq rfl rfl
      exact (hk.follows.trans hfd).trans (follows_create _ _ _ _ _ (by decide))

theorem Owned.pass (ho : Owned s) (p : ℕ) (fileno dest_fdidx : Fin FILE_DESC_PER_PROCESS)
    (proc_id : ℕ) : Follows s (setFileToProcess s p fileno dest_fdidx proc_id).1 := by
  unfold setFileToProcess
  simp only
  split_ifs
  · exact Follows.refl s
  · exact Follows.refl s
  · split
    · exact .of_eq rfl rfl
    · case h_2 j hj =>
      split_ifs with hf
      · exact .of_eq rfl rfl
      · have hfd : Follows s { s with
            fds := setSlot s.fds proc_id dest_fdidx (s.fds p fileno)
            node := Function.update s.node (s.fds p fileno)
              (nodeCopied (s.node (s.fds p fileno))) } :=
          .of_eq rfl rfl
        apply hfd.trans
        apply follows_create
        intro ht
        have hv : (s.caps p j).valid := (capLookup_eq_some.mp hj).2
        exact ho.flag p j _ ⟨hv, ht, rfl⟩ (by simpa using hf)

theorem follows_dup (s : State) (p : ℕ) (oldfd newfd : ℤ) :
    Follows s (capDup s p oldfd newfd).1 := by
  rcases capDup_cases s p oldfd newfd with he | ⟨o, n, ho, -, -, -, he⟩
  · rw [he]
    exact Follows.refl s
  · rw [he]
    have hcaps : Follows s { s with caps := setSlot s.caps p n (s.caps p o) } := by
      apply follows_setCaps
      intro q j
      rw [setSlot_apply]
      by_cases hc : q = p ∧ j = n
      · rw [if_pos hc, hc.1]
        exact .inr (.inr ⟨o, (capLookup_eq_some.mp ho).2, rfl, rfl, rfl⟩)
      · rw [if_neg hc]
        exact .inl rfl
    apply hcaps.trans
    exact .of_eq rfl (by simp only [shareNode_hw])

theorem follows_restrict (s : State) (p : ℕ) (fd : ℤ) (new_rights : CapRights) :
    Follows s (capRestrict s p fd new_rights).1 := by
  rcases capRestrict_cases s p fd new_rights with he | ⟨i, hi, he⟩
  · rw [he]
    exact Follows.refl s
  · rw [he]
    apply follows_setCaps
    intro q j
    rw [setSlot_apply]
    by_cases hc : q = p ∧ j = i
    · rw [if_pos hc, hc.1]
      exact .inr (.inr ⟨i, (capLookup_eq_some.mp hi).2, rfl, rfl, rfl⟩)
    · rw [if_neg hc]
      exact .inl rfl

theorem Owned.inherit (ho : Owned s) (parent child : ℕ) :
    Follows s (capInheritTable s parent child) := by
  rw [capInheritTable_eq]
  apply follows_setCaps
  intro q j
  by_cases hc : q = child ∧ j < FILE_DESC_PER_PROCESS ∧ Inherits s parent child j
  · rw [if_pos hc]
    exact .inr (.inl fun ht => ho.flag parent j _ ⟨hc.2.2.1, ht, rfl⟩ hc.2.2.2.1)
  · rw [if_neg hc]
    exact .inl rfl

theorem follows_setObj (s : State) (h : ℕ) {obj : HwPci}
    (ho : obj.owner = (s.hw.obj h).owner) : Follows s { s with hw := setObj s.hw h obj } where
  refers p i k hr := ⟨i, hr, rfl⟩
  owner k := by
    dsimp only [setObj]
    by_cases hk : k = h
    · rw [hk, Function.update_self, ho]
    · rw [Function.update_of_ne hk]
  next := rfl

theorem follows_mapBar (s : State) (h bar offset length va : ℕ) (mem : Bool) :
    Follows s { s with hw := (mapBar s.hw h bar offset length va mem).1 } := by
  have hsame : Follows s { s with hw := s.hw } := Follows.refl s
  unfold mapBar
  dsimp only
  split
  · exact hsame
  · split_ifs
    · exact hsame
    · exact hsame
    · exact hsame
    · exact hsame
    · exact follows_setObj s h rfl

theorem follows_handleCode (s : State) (h : ℕ) (rights : CapRights) (code : HwIoctl) :
    Follows s { s with hw := (handleCode s.hw h rights code).1 } := by
  have hsame : Follows s { s with hw := s.hw } := Follows.refl s
  cases code with
  | cfgWrite value =>
    unfold handleCode
    dsimp only
    split_ifs
    · exact hsame
    · exact ⟨fun _ i _ hr => ⟨i, hr, rfl⟩, fun _ => rfl, rfl⟩
  | mapBar bar offset length va mem =>
    unfold handleCode
    dsimp only
    by_cases hr : rights &&& CAP_HW_MAP = 0
    · rw [if_pos hr]
      exact hsame
    · rw [if_neg hr]
      exact follows_mapBar s h bar offset length va mem
  | dmaAlloc length va phys mem =>
    unfold handleCode dmaAlloc
    dsimp only
    split_ifs
    · exact hsame
    · exact hsame
    · exact hsame
    · exact hsame
    · exact hsame
    · exact follows_setObj s h rfl
  | irqSetup spi msi =>
    unfold handleCode irqSetup
    dsimp only
    split_ifs
    · exact hsame
    · exact hsame
    · exact hsame
    · exact hsame
    · have howner : Follows s { s with hw := { s.hw with
          spi_owner := Function.update s.hw.spi_owner spi h } } :=
        ⟨fun _ i _ hr => ⟨i, hr, rfl⟩, fun _ => rfl, rfl⟩
      exact howner.trans (follows_setObj _ h rfl)

theorem follows_ioctl (s : State) (p n : ℕ) (code : HwIoctl) :
    Follows s (hwHandleIoctl s p n code).1 := by
  unfold hwHandleIoctl
  dsimp only
  split_ifs
  · exact Follows.refl s
  · split
    · exact Follows.refl s
    · exact follows_handleCode s _ _ code

/-- The new object is its opener's. -/
theorem Owned.newHandle (ho : Owned s) (p fd slot : ℕ) (req : HwdevPciOpen) (f : PciFunc) :
    Owned (newHandle s p fd slot req f) := by
  unfold Cap.newHandle
  dsimp only
  generalize hb : HwPci.mk f.place req.vendor req.device f.bars [] [] p none = obj
  have howner : obj.owner = p := by rw [← hb]
  generalize Function.update s.node s.nextNode _ = node
  have hobj (h : ℕ) (hlt : h < s.hw.next) :
      Function.update s.hw.obj s.hw.next obj h = s.hw.obj h :=
    Function.update_of_ne (Nat.ne_of_lt hlt) _ _
  rcases capCreate_cases { s with
    hw := { s.hw with obj := Function.update s.hw.obj s.hw.next obj, next := s.hw.next + 1 }
    node := node
    fds := setSlot s.fds p fd s.nextNode
    nextNode := s.nextNode + 1 } p fd s.hw.next CAP_OBJ_PCIDEV
      (CAP_HW_CFG ||| CAP_HW_MAP ||| CAP_HW_DMA ||| CAP_HW_IRQ) with he | ⟨i, -, -, he⟩
  · rw [he]
    constructor
    · exact fun q j h hr => Nat.lt_succ_of_lt (ho.opened q j h hr)
    · intro q j h hr
      exact (congrArg HwPci.owner (hobj h (ho.opened q j h hr))).trans (ho.owner q j h hr)
    · exact ho.flag
  · rw [he]
    have hold {q j h : ℕ} {cap : AuCapability} (hc : ¬(q = p ∧ j = i)) :
        Refers { s with caps := setSlot s.caps p i cap } q j h ↔ Refers s q j h := by
      simp only [Refers, setSlot_apply, if_neg hc]
    constructor
    · intro q j h hr
      by_cases hc : q = p ∧ j = i
      · obtain ⟨rfl, rfl⟩ := hc
        have hh : s.hw.next = h := by
          simp only [Refers, setSlot_self] at hr
          exact hr.2.2
        exact hh ▸ Nat.lt_succ_self _
      · exact Nat.lt_succ_of_lt (ho.opened q j h ((hold hc).mp hr))
    · intro q j h hr
      dsimp only
      by_cases hc : q = p ∧ j = i
      · obtain ⟨rfl, rfl⟩ := hc
        have hh : s.hw.next = h := by
          simp only [Refers, setSlot_self] at hr
          exact hr.2.2
        rw [← hh, Function.update_self, howner]
      · have hr' := (hold hc).mp hr
        rw [hobj h (ho.opened q j h hr')]
        exact ho.owner q j h hr'
    · intro q j h hr
      dsimp only
      rw [setSlot_apply]
      by_cases hc : q = p ∧ j = i
      · rw [if_pos hc, if_pos rfl]
        change CAP_FLAG_NO_INHERIT &&& CAP_FLAG_NO_INHERIT ≠ 0
        decide
      · rw [if_neg hc]
        exact ho.flag q j h ((hold hc).mp hr)

theorem Owned.pciOpen (ho : Owned s) (B : Platform) (p : ℕ) (req : Option HwdevPciOpen)
    (mem : Bool) : Owned (pciOpen B s p req mem).1 := by
  unfold Cap.pciOpen
  repeat' split
  all_goals first | exact ho | exact ho.newHandle ..

theorem Owned.step (ho : Owned s) (op : HwOp) : Owned (hwStep B s op) := by
  cases op with
  | pciOpen p req mem => exact ho.pciOpen B p req mem
  | ioctl p fd code =>
    simp only [hwStep]
    split
    · exact ho
    · split_ifs
      · exact ho
      · exact ho.follows (follows_ioctl s _ _ code)
  | openFile p n mode driver =>
    simp only [hwStep]
    split_ifs
    · exact ho.follows (follows_openFile s p n mode driver)
    · exact ho
  | pass p fileno dest_fdidx proc_id => exact ho.follows (ho.pass p fileno dest_fdidx proc_id)
  | dup p oldfd newfd => exact ho.follows (follows_dup s p oldfd newfd)
  | restrict p fd new_rights => exact ho.follows (follows_restrict s p fd new_rights)
  | inherit parent child => exact ho.follows (ho.inherit parent child)
  | destroy p fd =>
    simp only [hwStep, capDestroy]
    split
    · exact ho
    · exact ho.follows (follows_clearSlot s p _)
  | close p fd => exact ho.follows (follows_closeFile s p fd)
  | exit p => exact ho.follows (follows_closeFiles s p)

def pageAlign (n : ℕ) : ℕ := n / 4096 * 4096

/-- The pages that the loop of `HWDEV_IOC_MAP_BAR` hands to `AuMapPage`, which drops the low bits
of an address. -/
def mapBarPages (b : HwBar) (offset length : ℕ) : List ℕ :=
  (List.range ((length + 4095) % 2 ^ 64 / 4096)).map fun k =>
    pageAlign ((b.base + offset + k * 4096) % 2 ^ 64)

/-- The pages are inside the register range. -/
def MapsInside (b : HwBar) (offset length : ℕ) : Prop :=
  ∀ page ∈ mapBarPages b offset length, b.base ≤ page ∧ page + 4096 ≤ b.base + b.size

/-- The range begins with a page, or the mapping does not begin with the range; and the whole
pages of the mapping end within the range and the address space. -/
def WholePages (b : HwBar) (offset length : ℕ) : Prop :=
  (b.base % 4096 = 0 ∨ 0 < offset) ∧
    pageAlign b.base + offset + pageAlign (length + 4095) ≤ min (b.base + b.size) (2 ^ 64)

/-- What the checks of a request leave. -/
theorem mapBar_ok {bar offset length va : ℕ} {mem : Bool} {b : HwBar}
    (hbar : (hw.obj h).bars[bar]? = some b) (hlen : length < 2 ^ 64) (hoff : offset < 2 ^ 64)
    (hok : (mapBar hw h bar offset length va mem).2 = HWDEV_OK) :
    0 < length ∧ offset % 4096 = 0 ∧ length + 4095 < 2 ^ 64 ∧
      offset + pageAlign (length + 4095) < 2 ^ 64 := by
  have hinval : HWDEV_E_INVAL ≠ HWDEV_OK := by decide
  have hnomem : HWDEV_E_NOMEM ≠ HWDEV_OK := by decide
  unfold mapBar at hok
  dsimp only at hok
  rw [hbar] at hok
  dsimp only at hok
  unfold pageAlign
  split_ifs at hok with _ hbad
  · exact absurd hok hinval
  · exact absurd hok hinval
  · exact absurd hok hnomem
  · exact absurd hok hnomem
  · omega

/-- Page `k` of a mapping that does not run over the end of the address space. -/
theorem page_eq {base offset k : ℕ} (hoff : offset % 4096 = 0)
    (hlt : base + offset + k * 4096 < 2 ^ 64) :
    pageAlign ((base + offset + k * 4096) % 2 ^ 64) = pageAlign base + offset + k * 4096 := by
  unfold pageAlign
  rw [Nat.mod_eq_of_lt hlt]
  omega

theorem page_lt {base offset k : ℕ} (hbase : base < 2 ^ 64) (hk : offset + k * 4096 < 2 ^ 64)
    (hge : 2 ^ 64 ≤ base + offset + k * 4096) :
    pageAlign ((base + offset + k * 4096) % 2 ^ 64) < base := by
  unfold pageAlign
  omega

theorem mapsInside_iff {b : HwBar} {offset length : ℕ} (hbase : b.base < 2 ^ 64)
    (hpos : 0 < length) (hoff : offset % 4096 = 0) (hlen : length + 4095 < 2 ^ 64)
    (hend : offset + pageAlign (length + 4095) < 2 ^ 64) :
    MapsInside b offset length ↔ WholePages b offset length := by
  obtain ⟨n, hn⟩ : ∃ n, (length + 4095) / 4096 = n := ⟨_, rfl⟩
  have hsize : pageAlign (length + 4095) = n * 4096 := by rw [pageAlign, hn]
  have hnpos : 0 < n := by omega
  have hfloor : pageAlign b.base ≤ b.base ∧ b.base < pageAlign b.base + 4096 ∧
      (pageAlign b.base = b.base ↔ b.base % 4096 = 0) ∧ pageAlign b.base % 4096 = 0 := by
    unfold pageAlign
    omega
  unfold MapsInside mapBarPages WholePages
  rw [hsize] at hend ⊢
  rw [Nat.mod_eq_of_lt hlen, hn, List.forall_mem_map]
  generalize hB : pageAlign b.base = B at hfloor ⊢
  constructor
  · intro hall
    have hlt (k : ℕ) (hk : k < n) : b.base + offset + k * 4096 < 2 ^ 64 := by
      by_contra hge
      have hover : 2 ^ 64 ≤ b.base + offset + k * 4096 := by omega
      have hle : k * 4096 ≤ n * 4096 := Nat.mul_le_mul_right 4096 (Nat.le_of_lt hk)
      have hplace : offset + k * 4096 < 2 ^ 64 :=
        Nat.lt_of_le_of_lt (Nat.add_le_add_left hle offset) hend
      have hback := page_lt hbase hplace hover
      have hin := (hall k (List.mem_range.mpr hk)).1
      omega
    have hfirst := hall 0 (List.mem_range.mpr hnpos)
    have hlast := hall (n - 1) (List.mem_range.mpr (by omega))
    have hlt' := hlt (n - 1) (by omega)
    rw [page_eq hoff (hlt 0 hnpos), hB] at hfirst
    rw [page_eq hoff hlt', hB] at hlast
    constructor
    · omega
    · rw [Nat.le_min]
      omega
  · rintro ⟨hstart, hstop⟩ k hk
    rw [Nat.le_min] at hstop
    rw [List.mem_range] at hk
    rw [page_eq hoff (by omega), hB]
    omega

theorem owned_boot (creds : ℕ → Creds) (node : ℕ → AuVFSNode) (nodes : ℕ)
    (command : Place → BitVec 16) : Owned (bootState creds node nodes command) where
  opened _ _ _ hr := absurd hr.1 Bool.false_ne_true
  owner _ _ _ hr := absurd hr.1 Bool.false_ne_true
  flag _ _ _ hr := absurd hr.1 Bool.false_ne_true

theorem owned_run (B : Platform) (ho : Owned s) (ops : List HwOp) :
    Owned (run (hwStep B) s ops) := by
  induction ops generalizing s with
  | nil => exact ho
  | cons op ops ih => exact ih (ho.step op)

/-- The whole range lies in one buffer of a device object that the process has opened. -/
def OwnsBuffer (s : State) (p : ℕ) (phys len : UInt64) : Prop :=
  ∃ i h, Refers s p i h ∧ (s.hw.obj h).owner = p ∧ ∃ d ∈ (s.hw.obj h).dmas, d.Holds phys len

/-- In every run: the pages of a mapping that succeeds are inside the register range exactly when
they are whole pages of it, and a check of DMA memory succeeds only for a range in one buffer of
the process, which is not released as long as no device capability is duplicated. -/
theorem exec_hwBounds (B : Platform) (creds : ℕ → Creds) (node : ℕ → AuVFSNode) (nodes : ℕ)
    (command : Place → BitVec 16) (ops : List HwOp) (s : State)
    (hs : s = run (hwStep B) (bootState creds node nodes command) ops) :
    (∀ (p n bar offset length va : ℕ) (mem : Bool) (b : HwBar), offset < 2 ^ 64 →
      length < 2 ^ 64 → (s.hw.obj (s.node n).private_data).bars[bar]? = some b →
      b.base < 2 ^ 64 → (hwHandleIoctl s p n (.mapBar bar offset length va mem)).2 = HWDEV_OK →
        (MapsInside b offset length ↔ WholePages b offset length)) ∧
    (∀ (p : ℕ) (phys len : UInt64), auHwdevOwnsDma s (some p) phys len → OwnsBuffer s p phys len) ∧
    (∀ (p : ℕ) (fd : ℤ) (phys len : UInt64),
      auHwdevHandleOwnsDma s (some p) fd phys len → OwnsBuffer s p phys len) ∧
    (Respects OneSlot (hwStep B) (bootState creds node nodes command) ops →
      ∀ p i h, Refers s p i h → s.hw.released h = 0) := by
  have ho : Owned s := hs ▸ owned_run B (owned_boot creds node nodes command) ops
  refine ⟨?_, ?_, ?_, ?_⟩
  · intro p n bar offset length va mem b hoff hlen hbar hbase hok
    have hperm : HWDEV_E_PERM ≠ HWDEV_OK := by decide
    unfold hwHandleIoctl at hok
    dsimp only at hok
    split_ifs at hok
    · exact absurd hok hperm
    · split at hok
      · exact absurd hok hperm
      · dsimp only [handleCode] at hok
        split_ifs at hok
        · exact absurd hok hperm
        · obtain ⟨hpos, halign, hlt, hend⟩ := mapBar_ok hbar hlen hoff hok
          exact mapsInside_iff hbase hpos halign hlt hend
  · intro p phys len hok
    obtain ⟨i, h, hr, hd⟩ := ownsDma_holds hok
    exact ⟨i, h, hr, ho.owner p i h hr, hd⟩
  · intro p fd phys len hok
    obtain ⟨i, h, hr, hd⟩ := handleOwnsDma_holds hok
    exact ⟨i, h, hr, ho.owner p i h hr, hd⟩
  · intro hone p i h hr
    have hi : Inv s := hs ▸ hone.invariant (I := Inv) (fun _ _ hi hop => hi.step hop)
      (inv_boot creds node nodes command)
    exact (hi.lifetime.used p i h hr).1

/-- A device with registers of one page and registers of 256 bytes. -/
def barPlatform : Platform where
  fns := [⟨(0, 1, 0), 0x1AF4, 0x1041, [⟨0x10000000, 0x1000, true⟩, ⟨0x10001100, 0x100, true⟩]⟩]
  driver _ := false
  misc := 4

def barRun : List HwOp :=
  [.pciOpen 0 (some ⟨0x1AF4, 0x1041, 0⟩) true, .ioctl 0 3 (.dmaAlloc 8192 0x1000 0x8000 true)]

/-- The page of the first registers is inside them, and the second page of the buffer is the
process's. -/
theorem exec_hwBounds_page : MapsInside ⟨0x10000000, 0x1000, true⟩ 0 16 ∧
    OwnsBuffer (run (hwStep barPlatform) driverBoot barRun) 0 0x9000 0x1000 := by
  have h := exec_hwBounds barPlatform _ _ 0 _ barRun
    (run (hwStep barPlatform) driverBoot barRun) rfl
  constructor
  · apply (h.1 0 1 0 0 16 0x3000 true ⟨0x10000000, 0x1000, true⟩ (by decide) (by decide)
      (by decide +kernel) (by decide) (by decide +kernel)).mpr
    exact ⟨by decide, by decide⟩
  · exact h.2.1 0 0x9000 0x1000 (by decide +kernel)

/-- A mapping of the small registers succeeds, and has what is before and behind them. -/
theorem not_exec_hwBounds : ¬∀ (B : Platform) (creds : ℕ → Creds) (node : ℕ → AuVFSNode)
    (nodes : ℕ) (command : Place → BitVec 16) (ops : List HwOp) (p n bar offset length va : ℕ)
    (mem : Bool) (b : HwBar) (s : State),
    s = run (hwStep B) (bootState creds node nodes command) ops → offset < 2 ^ 64 →
      length < 2 ^ 64 → (s.hw.obj (s.node n).private_data).bars[bar]? = some b →
      b.base < 2 ^ 64 → (hwHandleIoctl s p n (.mapBar bar offset length va mem)).2 = HWDEV_OK →
        MapsInside b offset length := by
  intro h
  have hin := h barPlatform (fun _ => ⟨0, 4, []⟩) (fun _ => default) 0 (fun _ => 0) barRun 0 1 1 0
    0x100 0x3000 true ⟨0x10001100, 0x100, true⟩ _ rfl (by decide) (by decide) (by decide +kernel)
    (by decide) (by decide +kernel)
  have hpage := hin 0x10001000 (by decide)
  revert hpage
  decide

end Xeneva.Cap
