import Xeneva.Base.Run
import Xeneva.Cap.Devhw

/-!
# Device objects are released once

As long as a device capability is neither duplicated nor overwritten, every device object has
one capability, and the object goes when that capability does.
-/

namespace Xeneva.Cap

open Xeneva.Base

variable {R R' : ℕ → ℕ → ℕ → Prop} {hw : Hw} {s t : State} {B : Platform} {p q i j h k n : ℕ}

/-- Slot `i` of process `p` has a capability for the device object `h`. -/
def Refers (s : State) (p i h : ℕ) : Prop :=
  (s.caps p i).valid ∧ (s.caps p i).object_type = CAP_OBJ_PCIDEV ∧ (s.caps p i).object = h

instance (s : State) (p i h : ℕ) : Decidable (Refers s p i h) :=
  inferInstanceAs (Decidable (_ ∧ _))

def Opened (hw : Hw) (h : ℕ) : Prop := 0 < h ∧ h < hw.next

/-- The device does not decode its memory, and masters the bus no more. -/
def Stopped (hw : Hw) (place : Place) : Prop :=
  hw.command place &&& (PCI_CMD_MEM ||| PCI_CMD_MASTER ||| PCI_CMD_IO) = 0

/-- The device objects, where `R` tells which slots refer to which. -/
structure HwInv (R : ℕ → ℕ → ℕ → Prop) (hw : Hw) : Prop where
  opened : ∀ p i h, R p i h → Opened hw h
  func : ∀ p i h k, R p i h → R p i k → h = k
  uniq : ∀ p i q j h, R p i h → R q j h → p = q ∧ i = j
  unreleased : ∀ p i h, R p i h → hw.released h = 0 ∧ hw.returned h = []
  claimed : ∀ p i h, R p i h → ∃ k < HW_MAX_CLAIMS, hw.claims k = h
  gone : ∀ h, Opened hw h → (∀ p i, ¬R p i h) →
    hw.released h = 1 ∧ hw.returned h = (hw.obj h).dmas.map HwDma.phys
  claims : ∀ k, hw.claims k ≠ 0 → ∃ p i, R p i (hw.claims k)
  spi : ∀ k, hw.spi_owner k ≠ 0 →
    (hw.obj (hw.spi_owner k)).spi = some k ∧ ∃ p i, R p i (hw.spi_owner k)
  fresh : ∀ h, hw.next ≤ h → hw.released h = 0 ∧ hw.returned h = []
  stopped : ∀ h, Opened hw h → Stopped hw (hw.obj h).place ∨
    ∃ p i h', R p i h' ∧ (hw.obj h').place = (hw.obj h).place
  pos : 0 < hw.next

theorem HwInv.congr (hi : HwInv R hw) (hR : ∀ p i h, R p i h ↔ R' p i h) : HwInv R' hw := by
  have he : R = R' := by
    funext p i h
    exact propext (hR p i h)
  exact he ▸ hi

theorem stopped_hwStopDevice (hw : Hw) (h : ℕ) : Stopped (hwStopDevice hw h) (hw.obj h).place := by
  rw [Stopped, hwStopDevice_command, if_pos rfl, BitVec.and_assoc]
  have hm : ~~~(PCI_CMD_MEM ||| PCI_CMD_MASTER ||| PCI_CMD_IO) &&&
      (PCI_CMD_MEM ||| PCI_CMD_MASTER ||| PCI_CMD_IO) = 0 := by decide
  rw [hm]
  exact BitVec.and_zero

/-- The last slot that refers to an object goes, and the object with it. -/
theorem HwInv.release (hi : HwInv R hw) (hr : R p i h) :
    HwInv (fun q j k => R q j k ∧ ¬(q = p ∧ j = i)) (auHwdevCapReleased hw h) := by
  have ho := hi.opened p i h hr
  rw [auHwdevCapReleased_eq (Nat.pos_iff_ne_zero.mp ho.1)]
  have hgone : ∀ q j k, R q j k ∧ ¬(q = p ∧ j = i) → k ≠ h := by
    intro q j k hq he
    exact hq.2 (hi.uniq q j p i h (he ▸ hq.1) hr)
  have hkeep : ∀ q j k, R q j k → k ≠ h → R q j k ∧ ¬(q = p ∧ j = i) := by
    intro q j k hq hk
    refine ⟨hq, fun he => hk ?_⟩
    exact hi.func p i k h (he.1 ▸ he.2 ▸ hq) hr
  have hobj : ∀ k, k ≠ h →
      Function.update hw.obj h { hw.obj h with spi := none } k = hw.obj k :=
    fun k hk => Function.update_of_ne hk _ _
  have hplace : ∀ k, (Function.update hw.obj h { hw.obj h with spi := none } k).place =
      (hw.obj k).place := by
    intro k
    by_cases hk : k = h
    · rw [hk, Function.update_self]
    · rw [hobj k hk]
  constructor
  · intro q j k hq
    exact hi.opened q j k hq.1
  · intro q j k k' hq hq'
    exact hi.func q j k k' hq.1 hq'.1
  · intro q j q' j' k hq hq'
    exact hi.uniq q j q' j' k hq.1 hq'.1
  · intro q j k hq
    have hk := hgone q j k hq
    simp only [Function.update_of_ne hk]
    exact hi.unreleased q j k hq.1
  · intro q j k hq
    obtain ⟨l, hl, hlk⟩ := hi.claimed q j k hq.1
    refine ⟨l, hl, ?_⟩
    simp only [hlk, if_neg (hgone q j k hq)]
  · intro k hk hnone
    by_cases hkh : k = h
    · obtain ⟨h0, hnil⟩ := hi.unreleased p i h hr
      simp [hkh, h0, hnil]
    · simp only [Function.update_of_ne hkh]
      apply hi.gone k hk
      intro q j hq
      exact hnone q j (hkeep q j k hq hkh)
  · intro k hk
    by_cases hkh : hw.claims k = h
    · exact absurd (if_pos hkh) hk
    · simp only [if_neg hkh] at hk ⊢
      obtain ⟨q, j, hq⟩ := hi.claims k hk
      exact ⟨q, j, hkeep q j _ hq hkh⟩
  · intro k hk
    by_cases hks : (hw.obj h).spi = some k
    · exact absurd (if_pos hks) hk
    · simp only [if_neg hks] at hk ⊢
      obtain ⟨hs, q, j, hq⟩ := hi.spi k hk
      have hkh : hw.spi_owner k ≠ h := by
        intro he
        rw [he] at hs
        exact hks hs
      rw [hobj _ hkh]
      exact ⟨hs, q, j, hkeep q j _ hq hkh⟩
  · intro k hk
    have hkh : k ≠ h := by
      have := ho.2
      exact fun he => absurd hk (by simp only; omega)
    simp only [Function.update_of_ne hkh]
    exact hi.fresh k hk
  · intro k hk
    simp only [hplace]
    by_cases hp : (hw.obj k).place = (hw.obj h).place
    · left
      have := stopped_hwStopDevice hw h
      rw [hp]
      exact this
    · rcases hi.stopped k hk with hs | ⟨q, j, k', hq, hk'⟩
      · left
        rw [Stopped] at hs ⊢
        simp only [hwStopDevice_command, if_neg hp]
        exact hs
      · right
        refine ⟨q, j, k', hkeep q j k' hq ?_, hk'⟩
        intro he
        exact hp (he ▸ hk'.symm)
  · exact hi.pos

/-- A new object, with the slot that refers to it and the place of its claim. -/
theorem HwInv.openObj (hi : HwInv R hw) (obj : HwPci) (hk : k < HW_MAX_CLAIMS)
    (hfree : hw.claims k = 0) (hR : ∀ h, ¬R p i h) :
    HwInv (fun q j l => R q j l ∨ (q = p ∧ j = i ∧ l = hw.next))
      { hw with
        obj := Function.update hw.obj hw.next obj
        next := hw.next + 1
        claims := Function.update hw.claims k hw.next } := by
  have hne : ∀ q j l, R q j l → l ≠ hw.next := by
    intro q j l hq
    have := (hi.opened q j l hq).2
    omega
  have hnext := hi.pos
  have hobj : ∀ l, l ≠ hw.next → Function.update hw.obj hw.next obj l = hw.obj l :=
    fun l hl => Function.update_of_ne hl _ _
  constructor
  · rintro q j l (hq | ⟨-, -, rfl⟩)
    · obtain ⟨h0, hl⟩ := hi.opened q j l hq
      exact ⟨h0, Nat.lt_succ_of_lt hl⟩
    · exact ⟨hnext, Nat.lt_succ_self _⟩
  · rintro q j l l' (hq | ⟨rfl, rfl, rfl⟩) (hq' | ⟨hp, hj, rfl⟩)
    · exact hi.func q j l l' hq hq'
    · exact absurd (hp ▸ hj ▸ hq) (hR l)
    · exact absurd hq' (hR l')
    · rfl
  · rintro q j q' j' l (hq | ⟨hp, hj, hl⟩) (hq' | ⟨hp', hj', hl'⟩)
    · exact hi.uniq q j q' j' l hq hq'
    · exact absurd hl' (hne q j l hq)
    · exact absurd hl (hne q' j' l hq')
    · exact ⟨hp.trans hp'.symm, hj.trans hj'.symm⟩
  · rintro q j l (hq | ⟨-, -, rfl⟩)
    · exact hi.unreleased q j l hq
    · exact hi.fresh hw.next le_rfl
  · rintro q j l (hq | ⟨-, -, rfl⟩)
    · obtain ⟨c, hc, hcl⟩ := hi.claimed q j l hq
      have hck : c ≠ k := by
        intro he
        have := (hi.opened q j l hq).1
        rw [he, hfree] at hcl
        omega
      refine ⟨c, hc, ?_⟩
      simp only [Function.update_of_ne hck]
      exact hcl
    · refine ⟨k, hk, ?_⟩
      simp only [Function.update_self]
  · intro l hl hnone
    have hln : l ≠ hw.next := fun he => hnone p i (Or.inr ⟨rfl, rfl, he⟩)
    simp only [hobj l hln]
    have hlo : Opened hw l := by
      have := hl.2
      simp only at this
      exact ⟨hl.1, by omega⟩
    exact hi.gone l hlo fun q j hq => hnone q j (Or.inl hq)
  · intro c hc
    by_cases hck : c = k
    · simp only [hck, Function.update_self]
      exact ⟨p, i, Or.inr ⟨rfl, rfl, trivial⟩⟩
    · simp only [Function.update_of_ne hck] at hc ⊢
      obtain ⟨q, j, hq⟩ := hi.claims c hc
      exact ⟨q, j, Or.inl hq⟩
  · intro c hc
    simp only at hc
    obtain ⟨hs', q, j, hq⟩ := hi.spi c hc
    simp only [hobj _ (hne q j _ hq)]
    exact ⟨hs', q, j, Or.inl hq⟩
  · intro l hl
    simp only at hl
    exact hi.fresh l (by omega)
  · intro l hl
    by_cases hln : l = hw.next
    · right
      exact ⟨p, i, hw.next, Or.inr ⟨rfl, rfl, rfl⟩, by rw [hln]⟩
    · simp only [hobj l hln]
      have hlo : Opened hw l := by
        have := hl.2
        simp only at this
        exact ⟨hl.1, by omega⟩
      rcases hi.stopped l hlo with hst | ⟨q, j, l', hq, hl'⟩
      · exact Or.inl hst
      · exact Or.inr ⟨q, j, l', Or.inl hq, by rw [hobj l' (hne q j l' hq)]; exact hl'⟩
  · exact Nat.succ_pos _

/-- An object's own data may change as long as its place does not, while it is in use. -/
theorem HwInv.setObj (hi : HwInv R hw) (hr : R p i h) {obj : HwPci}
    (hp : obj.place = (hw.obj h).place) (hs : obj.spi = (hw.obj h).spi) :
    HwInv R (setObj hw h obj) := by
  have hobj : ∀ l, l ≠ h → Function.update hw.obj h obj l = hw.obj l :=
    fun l hl => Function.update_of_ne hl _ _
  have hplace : ∀ l, (Function.update hw.obj h obj l).place = (hw.obj l).place := by
    intro l
    by_cases hl : l = h
    · rw [hl, Function.update_self, hp]
    · rw [hobj l hl]
  have hspi : ∀ l, (Function.update hw.obj h obj l).spi = (hw.obj l).spi := by
    intro l
    by_cases hl : l = h
    · rw [hl, Function.update_self, hs]
    · rw [hobj l hl]
  constructor
  · exact hi.opened
  · exact hi.func
  · exact hi.uniq
  · exact hi.unreleased
  · exact hi.claimed
  · intro l hl hnone
    have hlh : l ≠ h := fun he => hnone p i (he ▸ hr)
    simp only [Cap.setObj, hobj l hlh]
    exact hi.gone l hl hnone
  · exact hi.claims
  · intro c hc
    simp only [Cap.setObj, hspi] at hc ⊢
    exact hi.spi c hc
  · exact hi.fresh
  · intro l hl
    simp only [Cap.setObj, hplace]
    exact hi.stopped l hl
  · exact hi.pos

theorem HwInv.cfgWrite (hi : HwInv R hw) (hr : R p i h) (value : BitVec 16) :
    HwInv R (cfgWrite hw h value) where
  opened := hi.opened
  func := hi.func
  uniq := hi.uniq
  unreleased := hi.unreleased
  claimed := hi.claimed
  gone := hi.gone
  claims := hi.claims
  spi := hi.spi
  fresh := hi.fresh
  stopped := by
    intro l hl
    by_cases hp : (hw.obj l).place = (hw.obj h).place
    · exact Or.inr ⟨p, i, h, hr, hp.symm⟩
    · rcases hi.stopped l hl with hs | he
      · left
        rw [Stopped] at hs ⊢
        simp only [Cap.cfgWrite, Function.update_of_ne hp]
        exact hs
      · exact Or.inr he
  pos := hi.pos

theorem HwInv.mapBar (hi : HwInv R hw) (hr : R p i h) (bar offset length va : ℕ) (mem : Bool) :
    HwInv R (mapBar hw h bar offset length va mem).1 := by
  unfold Cap.mapBar
  simp only
  split
  · exact hi
  · split_ifs
    · exact hi
    · exact hi
    · exact hi
    · exact hi
    · exact hi.setObj hr rfl rfl

theorem HwInv.dmaAlloc (hi : HwInv R hw) (hr : R p i h) (length va phys : ℕ) (mem : Bool) :
    HwInv R (dmaAlloc hw h length va phys mem).1 := by
  unfold Cap.dmaAlloc
  simp only
  split_ifs
  · exact hi
  · exact hi
  · exact hi
  · exact hi
  · exact hi.setObj hr rfl rfl

theorem HwInv.irqSetup (hi : HwInv R hw) (hr : R p i h) (spi : ℕ) (msi : Bool) :
    HwInv R (irqSetup hw h spi msi).1 := by
  unfold Cap.irqSetup
  simp only
  split_ifs with hs ho hm
  · exact hi
  · exact hi
  · exact hi
  · have hn : (hw.obj h).spi = none := by simpa using hs
    have hfree : hw.spi_owner spi = 0 := by
      by_contra h0
      exact ho (Or.inr (Or.inr h0))
    have hobj : ∀ l, l ≠ h → Function.update hw.obj h { hw.obj h with spi := some spi } l =
        hw.obj l := fun l hl => Function.update_of_ne hl _ _
    have hplace : ∀ l, (Function.update hw.obj h { hw.obj h with spi := some spi } l).place =
        (hw.obj l).place := by
      intro l
      by_cases hl : l = h
      · rw [hl, Function.update_self]
      · rw [hobj l hl]
    constructor
    · exact hi.opened
    · exact hi.func
    · exact hi.uniq
    · exact hi.unreleased
    · exact hi.claimed
    · intro l hl hnone
      have hlh : l ≠ h := fun he => hnone p i (he ▸ hr)
      simp only [Cap.setObj, hobj l hlh]
      exact hi.gone l hl hnone
    · exact hi.claims
    · intro c hc
      simp only [Cap.setObj] at hc ⊢
      by_cases hcs : c = spi
      · simp only [hcs, Function.update_self]
        exact ⟨trivial, p, i, hr⟩
      · simp only [Function.update_of_ne hcs] at hc ⊢
        obtain ⟨hs', he⟩ := hi.spi c hc
        have hch : hw.spi_owner c ≠ h := by
          intro he'
          rw [he', hn] at hs'
          cases hs'
        rw [hobj _ hch]
        exact ⟨hs', he⟩
    · exact hi.fresh
    · intro l hl
      simp only [Cap.setObj, hplace]
      exact hi.stopped l hl
    · exact hi.pos

/-! ## The tables -/

structure TableInv (s : State) : Prop where
  slot : ∀ p i, (s.caps p i).valid → i < FILE_DESC_PER_PROCESS
  bare : ∀ p i, s.fds p i = 0 → (s.caps p i).valid = false
  flag : ∀ p i h, Refers s p i h → (s.caps p i).flags &&& CAP_FLAG_NO_INHERIT ≠ 0
  node : ∀ p i h, Refers s p i h → (s.node (s.fds p i)).private_data = h
  fd : ∀ p i, s.fds p i < s.nextNode

structure Inv (s : State) : Prop where
  hw : HwInv (Refers s) s.hw
  table : TableInv s

/-- Only descriptors without a capability are cleared. -/
structure Keeps (s t : State) : Prop where
  caps : t.caps = s.caps
  hw : t.hw = s.hw
  next : t.nextNode = s.nextNode
  priv : ∀ n, (t.node n).private_data = (s.node n).private_data
  fds : ∀ p i, t.fds p i = s.fds p i ∨ t.fds p i = 0 ∧ (s.caps p i).valid = false

theorem Keeps.refl (s : State) : Keeps s s :=
  ⟨rfl, rfl, rfl, fun _ => rfl, fun _ _ => Or.inl rfl⟩

theorem Keeps.trans {u : State} (h : Keeps s t) (h' : Keeps t u) : Keeps s u where
  caps := h'.caps.trans h.caps
  hw := h'.hw.trans h.hw
  next := h'.next.trans h.next
  priv n := (h'.priv n).trans (h.priv n)
  fds p i := by
    rcases h'.fds p i with he | ⟨he, hv⟩
    · rw [he]
      exact h.fds p i
    · rw [h.caps] at hv
      exact Or.inr ⟨he, hv⟩

theorem refers_congr (hc : t.caps = s.caps) (p i h : ℕ) : Refers t p i h ↔ Refers s p i h := by
  rw [Refers, Refers, hc]

theorem Inv.keeps (hi : Inv s) (hk : Keeps s t) : Inv t where
  hw := by
    rw [hk.hw]
    exact hi.hw.congr fun p i h => (refers_congr hk.caps p i h).symm
  table := {
    slot := hk.caps ▸ hi.table.slot
    bare := by
      intro p i h0
      rw [hk.caps]
      rcases hk.fds p i with he | ⟨-, hv⟩
      · exact hi.table.bare p i (he ▸ h0)
      · exact hv
    flag := by
      intro p i h hr
      rw [hk.caps]
      exact hi.table.flag p i h ((refers_congr hk.caps p i h).mp hr)
    node := by
      intro p i h hr
      rw [refers_congr hk.caps] at hr
      rcases hk.fds p i with he | ⟨-, hv⟩
      · rw [he, hk.priv]
        exact hi.table.node p i h hr
      · rw [hr.1] at hv
        cases hv
    fd := by
      intro p i
      rw [hk.next]
      rcases hk.fds p i with he | ⟨he, -⟩
      · exact he ▸ hi.table.fd p i
      · have := hi.table.fd p i
        omega }

/-! ### Capabilities go -/

theorem refers_clearSlot (q j h : ℕ) :
    Refers (clearSlot s p i) q j h ↔ Refers s q j h ∧ ¬(q = p ∧ j = i) := by
  rw [Refers, clearSlot_caps]
  by_cases hc : q = p ∧ j = i ∧ (s.caps p i).valid
  · rw [if_pos hc]
    constructor
    · intro hr
      cases hr.1
    · intro hr
      exact absurd ⟨hc.1, hc.2.1⟩ hr.2
  · rw [if_neg hc]
    refine ⟨fun hr => ⟨hr, ?_⟩, fun hr => hr.1⟩
    rintro ⟨rfl, rfl⟩
    exact hc ⟨rfl, rfl, hr.1⟩

theorem Inv.clearSlot (hi : Inv s) (p i : ℕ) : Inv (clearSlot s p i) where
  hw := by
    rw [clearSlot_hw]
    by_cases hc : (s.caps p i).valid ∧ (s.caps p i).object_type = CAP_OBJ_PCIDEV
    · rw [if_pos hc]
      apply (hi.hw.release (p := p) (i := i) ⟨hc.1, hc.2, rfl⟩).congr
      intro q j h
      exact (refers_clearSlot q j h).symm
    · rw [if_neg hc]
      apply hi.hw.congr
      intro q j h
      rw [refers_clearSlot]
      refine ⟨fun hr => ⟨hr, ?_⟩, fun hr => hr.1⟩
      rintro ⟨rfl, rfl⟩
      exact hc ⟨hr.1, hr.2.1⟩
  table := {
    slot := by
      intro q j hv
      rw [clearSlot_caps] at hv
      split_ifs at hv
      exact hi.table.slot q j hv
    bare := by
      intro q j h0
      rw [clearSlot_fds] at h0
      rw [clearSlot_caps]
      split_ifs
      · rfl
      · exact hi.table.bare q j h0
    flag := by
      intro q j h hr
      rw [refers_clearSlot] at hr
      rw [clearSlot_caps, if_neg fun hc => hr.2 ⟨hc.1, hc.2.1⟩]
      exact hi.table.flag q j h hr.1
    node := by
      intro q j h hr
      rw [refers_clearSlot] at hr
      rw [clearSlot_fds, clearSlot_node]
      exact hi.table.node q j h hr.1
    fd := by
      intro q j
      rw [clearSlot_fds, clearSlot_nextNode]
      exact hi.table.fd q j }

theorem Inv.cleanup (hi : Inv s) (p : ℕ) : Inv (capCleanupProcess s p) := by
  unfold capCleanupProcess
  generalize List.range FILE_DESC_PER_PROCESS = l
  induction l generalizing s with
  | nil => exact hi
  | cons i l ih => exact ih (hi.clearSlot p i)

/-! ### Descriptors go -/

theorem keeps_countDown (s : State) (n : ℕ) : Keeps s (countDown s n) where
  caps := rfl
  hw := rfl
  next := rfl
  priv k := by
    by_cases hk : k = n
    · simp [countDown, hk]
    · simp [countDown, hk]
  fds _ _ := Or.inl rfl

theorem keeps_kfreeNode (s : State) (n : ℕ) : Keeps s (kfreeNode s n) :=
  ⟨rfl, rfl, rfl, fun _ => rfl, fun _ _ => Or.inl rfl⟩

theorem keeps_runHook (s : State) (n : ℕ) : Keeps s (runHook s n) := by
  unfold runHook
  split_ifs
  · exact ⟨rfl, rfl, rfl, fun _ => rfl, fun _ _ => Or.inl rfl⟩
  · exact Keeps.refl s

theorem keeps_socketClose (s : State) (n : ℕ) : Keeps s (socketClose s n) := by
  unfold socketClose
  split_ifs
  · exact (keeps_runHook s n).trans (keeps_kfreeNode _ n)
  · exact Keeps.refl s

theorem keeps_dropNode (s : State) (n : ℕ) : Keeps s (dropNode s n) := by
  unfold dropNode
  split_ifs
  · exact keeps_kfreeNode s n
  · exact keeps_countDown s n

theorem keeps_auPipeClose (s : State) (n : ℕ) : Keeps s (auPipeClose s n) := by
  unfold auPipeClose
  simp only
  split_ifs
  · exact Keeps.refl s
  · refine ⟨rfl, rfl, rfl, fun k => ?_, fun _ _ => Or.inl rfl⟩
    by_cases hk : k = n
    · simp [hk]
    · simp [hk]
  · exact ⟨rfl, rfl, rfl, fun _ => rfl, fun _ _ => Or.inl rfl⟩

theorem keeps_auDevFSNodeClose (s : State) (n : ℕ) : Keeps s (auDevFSNodeClose s n) := by
  unfold auDevFSNodeClose
  split_ifs
  · exact keeps_runHook s n
  · exact (keeps_runHook s n).trans (keeps_countDown _ n)

theorem clearSlot_withFds (fds : ℕ → ℕ → ℕ) :
    clearSlot { s with fds } p i = { clearSlot s p i with fds } := by
  unfold clearSlot
  split_ifs <;> rfl

theorem keeps_clearFds {c : ℕ → ℕ → Prop} [∀ q j, Decidable (c q j)]
    (hc : ∀ q j, c q j → (s.caps q j).valid = false) :
    Keeps s { s with fds := fun q j => if c q j then 0 else s.fds q j } where
  caps := rfl
  hw := rfl
  next := rfl
  priv _ := rfl
  fds q j := by
    by_cases h : c q j
    · exact Or.inr ⟨if_pos h, hc q j h⟩
    · exact Or.inl (if_neg h)

theorem keeps_setFd_zero (hv : (s.caps p i).valid = false) :
    Keeps s { s with fds := setSlot s.fds p i 0 } :=
  keeps_clearFds fun _ _ hc => hc.1 ▸ hc.2 ▸ hv

theorem Inv.clearDesc (hi : Inv s) (p i : ℕ) : Inv (clearDesc s p i) := by
  have hv : ((Cap.clearSlot s p i).caps p i).valid = false := by
    rw [clearSlot_caps]
    split_ifs with hc
    · rfl
    · by_contra hv
      exact hc ⟨rfl, rfl, by simpa using hv⟩
  have he : Cap.clearDesc s p i =
      { Cap.clearSlot s p i with fds := setSlot (Cap.clearSlot s p i).fds p i 0 } := by
    rw [Cap.clearDesc, clearSlot_withFds, clearSlot_fds]
  rw [he]
  exact (hi.clearSlot p i).keeps (keeps_setFd_zero hv)

theorem Inv.closeFile (hi : Inv s) (p : ℕ) (fd : ℤ) : Inv (closeFile s p fd).1 := by
  unfold Cap.closeFile
  split
  · exact hi
  · case h_2 i _ =>
    have hc := hi.clearDesc p i
    simp only
    split_ifs
    · exact hi
    · exact hc
    · exact hc
    · exact hc.keeps (keeps_runHook _ _)
    · exact hc.keeps (keeps_dropNode _ _)
    · exact hc.keeps (keeps_dropNode _ _)
    · exact (hi.keeps (keeps_auPipeClose s _)).clearDesc p i
    · exact hc
    · exact hc.keeps (keeps_socketClose _ _)
    · exact hi

theorem keeps_closeSlot (hv : ∀ i, (s.caps p i).valid = false) (i : ℕ) :
    Keeps s (closeSlot s p i) := by
  have h0 := keeps_setFd_zero (hv i)
  unfold closeSlot
  simp only
  split_ifs
  · exact Keeps.refl s
  · exact h0.trans (keeps_countDown _ _)
  · exact h0.trans (keeps_auDevFSNodeClose _ _)
  · exact h0
  · apply (h0.trans (keeps_clearFds _)).trans (keeps_kfreeNode _ _)
    intro q j hc
    exact hc.1 ▸ hv j
  · exact h0.trans (keeps_countDown _ _)
  · exact h0.trans (keeps_socketClose _ _)
  · exact h0

theorem cleanup_invalid (hi : Inv s) (p i : ℕ) :
    ((capCleanupProcess s p).caps p i).valid = false := by
  rw [capCleanupProcess, clearLoop_caps]
  split_ifs with hc
  · rfl
  · by_contra hv
    have hv' : (s.caps p i).valid := by simpa using hv
    exact hc ⟨rfl, hi.table.slot p i hv', hv'⟩

theorem Inv.closeFiles (hi : Inv s) (p : ℕ) : Inv (auProcessCloseFiles s p) := by
  unfold auProcessCloseFiles
  have hv := cleanup_invalid hi p
  have hc := hi.cleanup p
  generalize capCleanupProcess s p = t at hv hc
  generalize List.range FILE_DESC_PER_PROCESS = l
  induction l generalizing t with
  | nil => exact hc
  | cons i l ih =>
    have hk := keeps_closeSlot hv i
    apply ih
    · intro j
      rw [hk.caps]
      exact hv j
    · exact hc.keeps hk

/-! ### Descriptors and capabilities come -/

/-- A descriptor without a capability may be written. -/
theorem Inv.setFd (hi : Inv s) (hv : (s.caps p i).valid = false) (hn : n < s.nextNode) :
    Inv { s with fds := setSlot s.fds p i n } where
  hw := hi.hw
  table := {
    slot := hi.table.slot
    bare := by
      intro q j h0
      simp only [setSlot_apply] at h0
      by_cases hc : q = p ∧ j = i
      · rw [hc.1, hc.2]
        exact hv
      · rw [if_neg hc] at h0
        exact hi.table.bare q j h0
    flag := hi.table.flag
    node := by
      intro q j h hr
      have hc : ¬(q = p ∧ j = i) := by
        intro hc
        have hv' : (s.caps q j).valid := hr.1
        rw [hc.1, hc.2, hv] at hv'
        cases hv'
      simp only [setSlot_apply, if_neg hc]
      exact hi.table.node q j h hr
    fd := by
      intro q j
      simp only [setSlot_apply]
      split_ifs
      · exact hn
      · exact hi.table.fd q j }

/-- Slots that hold no device capability may get capabilities for other objects, or be copied
without their rights changing what they are for. -/
theorem Inv.setCaps (hi : Inv s) {caps : ℕ → ℕ → AuCapability}
    (hc : ∀ q j, caps q j = s.caps q j ∨ j < FILE_DESC_PER_PROCESS ∧ s.fds q j ≠ 0 ∧
      (caps q j).object_type ≠ CAP_OBJ_PCIDEV ∧ ∀ h, ¬Refers s q j h) : Inv { s with caps } := by
  have hR : ∀ q j h, Refers { s with caps } q j h ↔ Refers s q j h := by
    intro q j h
    rcases hc q j with he | ⟨-, -, ht, hn⟩
    · simp only [Refers, he]
    · exact ⟨fun hr => absurd hr.2.1 ht, fun hr => absurd hr (hn h)⟩
  constructor
  · exact hi.hw.congr fun q j h => (hR q j h).symm
  · constructor
    · intro q j hv
      rcases hc q j with he | ⟨hj, -⟩
      · simp only [he] at hv
        exact hi.table.slot q j hv
      · exact hj
    · intro q j h0
      rcases hc q j with he | ⟨-, hf, -⟩
      · simp only [he]
        exact hi.table.bare q j h0
      · exact absurd h0 hf
    · intro q j h hr
      rw [hR] at hr
      rcases hc q j with he | ⟨-, -, -, hn⟩
      · simp only [he]
        exact hi.table.flag q j h hr
      · exact absurd hr (hn h)
    · intro q j h hr
      exact hi.table.node q j h ((hR q j h).mp hr)
    · exact hi.table.fd

theorem Inv.setCap (hi : Inv s) {cap : AuCapability} (hv : (s.caps p i).valid = false)
    (hj : i < FILE_DESC_PER_PROCESS) (hf : s.fds p i ≠ 0)
    (ht : cap.object_type ≠ CAP_OBJ_PCIDEV) : Inv { s with caps := setSlot s.caps p i cap } := by
  apply hi.setCaps
  intro q j
  by_cases hc : q = p ∧ j = i
  · right
    obtain ⟨rfl, rfl⟩ := hc
    rw [setSlot_self]
    refine ⟨hj, hf, ht, fun h hr => ?_⟩
    rw [hr.1] at hv
    cases hv
  · exact Or.inl (if_neg hc)

theorem Inv.create (hi : Inv s) {fd : ℤ} {object : ℕ} {type : UInt8} {rights : CapRights}
    (hs : capSlot fd = some i) (hv : (s.caps p i).valid = false) (hf : s.fds p i ≠ 0)
    (ht : type ≠ CAP_OBJ_PCIDEV) : Inv (capCreate s p fd object type rights).1 := by
  rcases capCreate_cases s p fd object type rights with he | ⟨j, hj, -, he⟩
  · rw [he]
    exact hi
  · rw [he]
    have hij : i = j := Option.some.inj (hs.symm.trans hj)
    rw [← hij]
    exact hi.setCap hv (capSlot_lt hs) hf ht

theorem keeps_nodeCopied (s : State) (n : ℕ) :
    Keeps s { s with node := Function.update s.node n (nodeCopied (s.node n)) } where
  caps := rfl
  hw := rfl
  next := rfl
  priv k := by
    by_cases hk : k = n
    · simp [hk, nodeCopied]
    · simp [hk]
  fds _ _ := Or.inl rfl

theorem keeps_auDevFSNodeOpen (s : State) (n : ℕ) (driver : Bool) :
    Keeps s (auDevFSNodeOpen s n driver).1 := by
  unfold auDevFSNodeOpen
  simp only
  split_ifs
  · exact Keeps.refl s
  · exact Keeps.refl s
  · exact keeps_nodeCopied s n

theorem capSlot_natCast (h : i < FILE_DESC_PER_PROCESS) : capSlot (i : ℤ) = some i := by
  rw [capSlot, if_pos ⟨Int.natCast_nonneg i, Int.ofNat_lt.mpr h⟩]
  rfl

theorem Inv.openFile (hi : Inv s) (hn : 0 < n) (hlt : n < s.nextNode) (p : ℕ) (mode : BitVec 32)
    (driver : Bool) : Inv (openFile s p n mode driver).1 := by
  unfold Cap.openFile
  cases hfd : auProcessGetFileDesc (s.fds p) with
  | none => exact hi
  | some fd =>
    obtain ⟨hlt60, h0⟩ := auProcessGetFileDesc_spec hfd
    have hv := hi.table.bare p fd h0
    have hk : Keeps s (if (s.node n).has FS_FLAG_DEVICE then auDevFSNodeOpen s n driver
        else (s, true)).1 := by
      split_ifs
      · exact keeps_auDevFSNodeOpen s n driver
      · exact Keeps.refl s
    simp only
    generalize (if (s.node n).has FS_FLAG_DEVICE then auDevFSNodeOpen s n driver
        else (s, true)) = r at hk
    obtain ⟨t, ok⟩ := r
    simp only at hk ⊢
    split_ifs
    · exact hi.keeps hk
    · have hvt : (t.caps p fd).valid = false := hk.caps ▸ hv
      have ht := (hi.keeps hk).setFd hvt (hk.next ▸ hlt)
      apply ht.create (capSlot_natCast hlt60) hvt
      · simp only [setSlot_self]
        omega
      · decide

theorem Inv.notDevice (hi : Inv s) (hv : (s.caps p i).valid)
    (hf : (s.caps p i).flags &&& CAP_FLAG_NO_INHERIT = 0) :
    (s.caps p i).object_type ≠ CAP_OBJ_PCIDEV :=
  fun ht => hi.table.flag p i _ ⟨hv, ht, rfl⟩ hf

theorem Inv.pass (hi : Inv s) (p : ℕ) (fileno dest_fdidx : Fin FILE_DESC_PER_PROCESS)
    (proc_id : ℕ) : Inv (setFileToProcess s p fileno dest_fdidx proc_id).1 := by
  unfold setFileToProcess
  simp only
  split_ifs with h0 hd
  · exact hi
  · exact hi
  · have hv := hi.table.bare proc_id dest_fdidx (by simpa using hd)
    have ht := (hi.setFd hv (hi.table.fd p fileno)).keeps (keeps_nodeCopied _ (s.fds p fileno))
    split
    · exact ht
    · case h_2 j hj =>
      split_ifs with hf
      · exact ht
      · have hvj := (capLookup_eq_some.mp hj).2
        apply ht.create (capSlot_natCast dest_fdidx.isLt) hv
        · simp only [setSlot_self]
          exact h0
        · exact hi.notDevice hvj (by simpa using hf)

theorem keeps_shareNode (s : State) (n : ℕ) : Keeps s (shareNode s n) where
  caps := shareNode_caps
  hw := shareNode_hw
  next := shareNode_nextNode
  priv := shareNode_private
  fds p i := by
    left
    rw [shareNode_fds]

/-- Rights and owners do not matter to the objects. -/
theorem Inv.sameCaps (hi : Inv s) {caps : ℕ → ℕ → AuCapability}
    (hv : ∀ q j, (caps q j).valid = (s.caps q j).valid)
    (ht : ∀ q j, (caps q j).object_type = (s.caps q j).object_type)
    (ho : ∀ q j, (caps q j).object = (s.caps q j).object)
    (hf : ∀ q j, (caps q j).flags = (s.caps q j).flags) : Inv { s with caps } := by
  have hR : ∀ q j h, Refers { s with caps } q j h ↔ Refers s q j h := by
    intro q j h
    simp only [Refers, hv, ht, ho]
  constructor
  · exact hi.hw.congr fun q j h => (hR q j h).symm
  · constructor
    · intro q j hvq
      exact hi.table.slot q j (hv q j ▸ hvq)
    · intro q j h0
      exact (hv q j).trans (hi.table.bare q j h0)
    · intro q j h hr
      simp only [hf]
      exact hi.table.flag q j h ((hR q j h).mp hr)
    · intro q j h hr
      exact hi.table.node q j h ((hR q j h).mp hr)
    · exact hi.table.fd

theorem setSlot_field {α β : Type} (f : ℕ → ℕ → α) (g : α → β) {a : α} (ha : g a = g (f p i))
    (q j : ℕ) : g (setSlot f p i a q j) = g (f q j) := by
  rw [setSlot_apply]
  split_ifs with hc
  · rw [ha, hc.1, hc.2]
  · rfl

theorem Inv.restrict (hi : Inv s) (p : ℕ) (fd : ℤ) (new_rights : CapRights) :
    Inv (capRestrict s p fd new_rights).1 := by
  rcases capRestrict_cases s p fd new_rights with he | ⟨i, -, he⟩
  · rw [he]
    exact hi
  · rw [he]
    apply hi.sameCaps
    · exact setSlot_field s.caps AuCapability.valid rfl
    · exact setSlot_field s.caps AuCapability.object_type rfl
    · exact setSlot_field s.caps AuCapability.object rfl
    · exact setSlot_field s.caps AuCapability.flags rfl

theorem Inv.dup (hi : Inv s) {oldfd newfd : ℤ}
    (h : ∀ o n, capLookup s p oldfd = some o → capSlot newfd = some n →
      (s.caps p n).valid = false → s.fds p n = 0 → (s.caps p o).object_type ≠ CAP_OBJ_PCIDEV) :
    Inv (capDup s p oldfd newfd).1 := by
  rcases capDup_cases s p oldfd newfd with he | ⟨o, n, ho, hn, hv, h0, he⟩
  · rw [he]
    exact hi
  · rw [he]
    have hvo := (capLookup_eq_some.mp ho).2
    have hfo : s.fds p o ≠ 0 := by
      intro hf
      rw [hi.table.bare p o hf] at hvo
      cases hvo
    have ht := (hi.setFd hv (hi.table.fd p o)).keeps (keeps_shareNode _ (s.fds p o))
    apply ht.setCaps
    intro q j
    simp only [shareNode_caps, shareNode_fds, setSlot_apply]
    by_cases hc : q = p ∧ j = n
    · right
      rw [if_pos hc, if_pos hc]
      refine ⟨hc.2 ▸ capSlot_lt hn, hfo, h o n ho hn hv h0, fun k hr => ?_⟩
      have hvn := hr.1
      rw [shareNode_caps, hc.1, hc.2, hv] at hvn
      cases hvn
    · exact Or.inl (if_neg hc)

theorem Inv.inherit (hi : Inv s) {parent child : ℕ}
    (h : ∀ i < FILE_DESC_PER_PROCESS, Inherits s parent child i → ∀ k, ¬Refers s child i k) :
    Inv (capInheritTable s parent child) := by
  rw [capInheritTable_eq]
  apply hi.setCaps
  intro q j
  by_cases hc : q = child ∧ j < FILE_DESC_PER_PROCESS ∧ Inherits s parent child j
  · right
    obtain ⟨rfl, hj, hin⟩ := id hc
    rw [if_pos hc]
    exact ⟨hj, hin.2.2, hi.notDevice hin.1 hin.2.1, h j hj hin⟩
  · exact Or.inl (if_neg hc)

/-! ### Handles -/

theorem not_refers_of_invalid (hv : (s.caps p i).valid = false) (h : ℕ) : ¬Refers s p i h := by
  intro hr
  rw [hr.1] at hv
  cases hv

theorem Inv.newHandle (hi : Inv s) {slot fd : ℕ} (hslot : slot < HW_MAX_CLAIMS)
    (hfree : s.hw.claims slot = 0) (hfd : fd < FILE_DESC_PER_PROCESS) (h0 : s.fds p fd = 0)
    (req : HwdevPciOpen) (f : PciFunc) : Inv (newHandle s p fd slot req f) := by
  have hv := hi.table.bare p fd h0
  have hnext := hi.hw.pos
  unfold Cap.newHandle
  simp only [capCreate, capSlot_natCast hfd, if_neg (Nat.pos_iff_ne_zero.mp hnext)]
  have hcap : ∀ q j, ¬(q = p ∧ j = fd) → ∀ a, setSlot s.caps p fd a q j = s.caps q j :=
    fun q j hc a => if_neg hc
  constructor
  · refine (hi.hw.openObj _ hslot hfree (not_refers_of_invalid hv)).congr fun q j h => ?_
    by_cases hc : q = p ∧ j = fd
    · obtain ⟨rfl, rfl⟩ := hc
      simp only [Refers, setSlot_self, hv]
      simp [eq_comm]
    · simp only [Refers, hcap q j hc]
      constructor
      · rintro (hr | ⟨hq, hj, -⟩)
        · exact hr
        · exact absurd ⟨hq, hj⟩ hc
      · exact Or.inl
  · constructor
    · intro q j hq
      by_cases hc : q = p ∧ j = fd
      · rw [hc.2]
        exact hfd
      · simp only [hcap q j hc] at hq
        exact hi.table.slot q j hq
    · intro q j hf
      by_cases hc : q = p ∧ j = fd
      · simp only [setSlot_apply, if_pos hc] at hf
        have := hi.table.fd p fd
        omega
      · simp only [hcap q j hc]
        simp only [setSlot_apply, if_neg hc] at hf
        exact hi.table.bare q j hf
    · intro q j h hr
      by_cases hc : q = p ∧ j = fd
      · simp only [setSlot_apply, if_pos hc, if_true]
        decide
      · simp only [Refers, hcap q j hc] at hr ⊢
        exact hi.table.flag q j h hr
    · intro q j h hr
      by_cases hc : q = p ∧ j = fd
      · simp only [Refers, setSlot_apply, if_pos hc] at hr
        simp only [setSlot_apply, if_pos hc, Function.update_self]
        exact hr.2.2
      · simp only [Refers, hcap q j hc] at hr
        have hlt := hi.table.fd q j
        simp only [setSlot_apply, if_neg hc, Function.update_of_ne (Nat.ne_of_lt hlt)]
        exact hi.table.node q j h hr
    · intro q j
      simp only [setSlot_apply]
      have := hi.table.fd q j
      split_ifs
      · omega
      · omega

theorem Inv.pciOpen (hi : Inv s) (B : Platform) (p : ℕ) (req : Option HwdevPciOpen) (mem : Bool) :
    Inv (pciOpen B s p req mem).1 := by
  unfold Cap.pciOpen
  split
  · exact hi
  · split
    · exact hi
    · case h_2 req =>
      split
      · exact hi
      · split
        · exact hi
        · split
          · exact hi
          · case h_2 f _ =>
            split
            · exact hi
            · split
              · exact hi
              · split
                · exact hi
                · case h_2 slot hslot =>
                  split
                  · exact hi
                  · case h_2 fd hfd =>
                    split
                    · exact hi
                    · have hm := List.mem_of_find?_eq_some hslot
                      have hz := List.find?_some hslot
                      obtain ⟨hlt, h0⟩ := auProcessGetFileDesc_spec hfd
                      exact hi.newHandle (List.mem_range.mp hm) (by simpa using hz) hlt h0 req f

theorem hwCapFor_spec (h : hwCapFor s p n = some i) :
    s.fds p i = n ∧ Refers s p i (s.caps p i).object := by
  have hp := List.find?_some h
  simp only [Bool.and_eq_true, decide_eq_true_eq] at hp
  exact ⟨hp.1.1, hp.1.2, hp.2, rfl⟩

theorem HwInv.handleCode (hi : HwInv R hw) (hr : R p i h) (rights : CapRights)
    (code : HwIoctl) : HwInv R (handleCode hw h rights code).1 := by
  cases code with
  | cfgWrite value =>
    simp only [Cap.handleCode]
    split_ifs
    · exact hi
    · exact hi.cfgWrite hr value
  | mapBar bar offset length va mem =>
    simp only [Cap.handleCode]
    split_ifs
    · exact hi
    · exact hi.mapBar hr bar offset length va mem
  | dmaAlloc length va phys mem =>
    simp only [Cap.handleCode]
    split_ifs
    · exact hi
    · exact hi.dmaAlloc hr length va phys mem
  | irqSetup spi msi =>
    simp only [Cap.handleCode]
    split_ifs
    · exact hi
    · exact hi.irqSetup hr spi msi

theorem Inv.ioctl (hi : Inv s) (p n : ℕ) (code : HwIoctl) :
    Inv (hwHandleIoctl s p n code).1 := by
  unfold hwHandleIoctl
  simp only
  split_ifs
  · exact hi
  · split
    · exact hi
    · case h_2 i hc =>
      obtain ⟨hn, hr⟩ := hwCapFor_spec hc
      have hh := hi.table.node p i _ hr
      rw [hn] at hh
      rw [← hh] at hr
      constructor
      · exact hi.hw.handleCode hr _ code
      · exact ⟨hi.table.slot, hi.table.bare, hi.table.flag, hi.table.node, hi.table.fd⟩

/-! ## Runs -/

/-- No device capability is duplicated, and none is overwritten by what a child inherits. -/
def OneSlot (s : State) : HwOp → Prop
  | .dup p oldfd newfd => ∀ o n, capLookup s p oldfd = some o → capSlot newfd = some n →
      (s.caps p n).valid = false → s.fds p n = 0 → (s.caps p o).object_type ≠ CAP_OBJ_PCIDEV
  | .inherit parent child => ∀ i < FILE_DESC_PER_PROCESS, Inherits s parent child i →
      (s.caps child i).valid → (s.caps child i).object_type ≠ CAP_OBJ_PCIDEV
  | _ => True

theorem Inv.step (hi : Inv s) {op : HwOp} (h : OneSlot s op) : Inv (hwStep B s op) := by
  cases op with
  | pciOpen p req mem => exact hi.pciOpen B p req mem
  | ioctl p fd code =>
    simp only [hwStep]
    split
    · exact hi
    · split_ifs
      · exact hi
      · exact hi.ioctl _ _ code
  | openFile p n mode driver =>
    simp only [hwStep]
    split_ifs with hn
    · exact hi.openFile hn.1 hn.2 p mode driver
    · exact hi
  | pass p fileno dest_fdidx proc_id => exact hi.pass p fileno dest_fdidx proc_id
  | dup p oldfd newfd => exact hi.dup h
  | restrict p fd new_rights => exact hi.restrict p fd new_rights
  | inherit parent child =>
    apply hi.inherit
    intro i hlt hin k hr
    exact h i hlt hin hr.1 hr.2.1
  | destroy p fd =>
    simp only [hwStep, capDestroy]
    split
    · exact hi
    · exact hi.clearSlot _ _
  | close p fd => exact hi.closeFile p fd
  | exit p => exact hi.closeFiles p

/-- No process has a descriptor yet; `nodes` nodes exist. -/
def bootState (creds : ℕ → Creds) (node : ℕ → AuVFSNode) (nodes : ℕ)
    (command : Place → BitVec 16) : State where
  caps _ _ := default
  fds _ _ := 0
  creds
  node
  nextNode := nodes + 1
  refcount _ := 0
  freed _ := 0
  hooks _ := 0
  hw := Hw.boot command

theorem inv_boot (creds : ℕ → Creds) (node : ℕ → AuVFSNode) (nodes : ℕ)
    (command : Place → BitVec 16) : Inv (bootState creds node nodes command) := by
  have hR : ∀ p i h, ¬Refers (bootState creds node nodes command) p i h := by
    intro p i h hr
    cases hr.1
  have hO : ∀ h, ¬Opened (Hw.boot command) h := by
    intro h ho
    have h0 := ho.1
    have h1 : h < 1 := ho.2
    omega
  constructor
  · constructor
    · exact fun p i h hr => absurd hr (hR p i h)
    · exact fun p i h _ hr => absurd hr (hR p i h)
    · exact fun p i _ _ h hr => absurd hr (hR p i h)
    · exact fun p i h hr => absurd hr (hR p i h)
    · exact fun p i h hr => absurd hr (hR p i h)
    · exact fun h ho => absurd ho (hO h)
    · exact fun k hk => absurd rfl hk
    · exact fun k hk => absurd rfl hk
    · exact fun _ _ => ⟨rfl, rfl⟩
    · exact fun h ho => absurd ho (hO h)
    · exact Nat.one_pos
  · constructor
    · intro p i hv
      cases hv
    · exact fun _ _ _ => rfl
    · exact fun p i h hr => absurd hr (hR p i h)
    · exact fun p i h hr => absurd hr (hR p i h)
    · exact fun _ _ => Nat.succ_pos nodes

/-- An object is unreleased while a capability refers to it. When none does it was released
once: its DMA memory went back, no interrupt is routed to it, no claim is held, and its device is
stopped unless it was opened again. -/
structure Lifetime (s : State) : Prop where
  used : ∀ p i h, Refers s p i h → s.hw.released h = 0 ∧ s.hw.returned h = []
  gone : ∀ h, Opened s.hw h → (∀ p i, ¬Refers s p i h) →
    s.hw.released h = 1 ∧ s.hw.returned h = (s.hw.obj h).dmas.map HwDma.phys ∧
    (∀ k, s.hw.claims k ≠ h) ∧ (∀ k, s.hw.spi_owner k ≠ h) ∧
    (Stopped s.hw (s.hw.obj h).place ∨
      ∃ p i h', Refers s p i h' ∧ (s.hw.obj h').place = (s.hw.obj h).place)

theorem Inv.lifetime (hi : Inv s) : Lifetime s where
  used := hi.hw.unreleased
  gone h ho hn := by
    obtain ⟨h1, hd⟩ := hi.hw.gone h ho hn
    refine ⟨h1, hd, ?_, ?_, hi.hw.stopped h ho⟩
    · intro k hk
      obtain ⟨p, i, hr⟩ := hi.hw.claims k (hk ▸ Nat.pos_iff_ne_zero.mp ho.1)
      exact hn p i (hk ▸ hr)
    · intro k hk
      obtain ⟨-, p, i, hr⟩ := hi.hw.spi k (hk ▸ Nat.pos_iff_ne_zero.mp ho.1)
      exact hn p i (hk ▸ hr)

/-- In every run that duplicates no device capability and inherits over none, every device
object is released once, when the capability that refers to it goes. -/
theorem exec_releasedOnce (B : Platform) (creds : ℕ → Creds) (node : ℕ → AuVFSNode) (nodes : ℕ)
    (command : Place → BitVec 16) (ops : List HwOp)
    (h : Respects OneSlot (hwStep B) (bootState creds node nodes command) ops) :
    Lifetime (run (hwStep B) (bootState creds node nodes command) ops) :=
  (h.invariant (I := Inv) (fun _ _ hi ho => hi.step ho)
    (inv_boot creds node nodes command)).lifetime

/-! ### Runs of one process -/

/-- One network device that a driver process may open. -/
def netPlatform : Platform where
  fns := [⟨(0, 1, 0), 0x1AF4, 0x1041, []⟩]
  driver _ := false
  misc := 4

def driverBoot : State := bootState (fun _ => ⟨0, 4, []⟩) (fun _ => default) 0 fun _ => 0

/-- The device is opened, masters the bus, gets DMA memory, and its process ends. -/
theorem exec_releasedOnce_exit : Lifetime (run (hwStep netPlatform) driverBoot
    [.pciOpen 0 (some ⟨0x1AF4, 0x1041, 0⟩) true, .ioctl 0 3 (.cfgWrite 6),
      .ioctl 0 3 (.dmaAlloc 8192 0x1000 0x8000 true), .exit 0]) :=
  exec_releasedOnce netPlatform _ _ 0 _ _ ⟨trivial, trivial, trivial, trivial, trivial⟩

/-- After a duplication the second descriptor refers to a device that is released already. -/
theorem not_exec_releasedOnce : ¬∀ (B : Platform) (creds : ℕ → Creds) (node : ℕ → AuVFSNode)
    (nodes : ℕ) (command : Place → BitVec 16) (ops : List HwOp),
    Lifetime (run (hwStep B) (bootState creds node nodes command) ops) := by
  intro h
  have hu := (h netPlatform (fun _ => ⟨0, 4, []⟩) (fun _ => default) 0 (fun _ => 0)
    [.pciOpen 0 (some ⟨0x1AF4, 0x1041, 0⟩) true, .dup 0 3 4, .destroy 0 3]).used 0 4 1
  revert hu
  decide +kernel

end Xeneva.Cap
