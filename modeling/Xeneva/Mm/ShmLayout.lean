import Xeneva.Base.Run
import Xeneva.Base.Total
import Xeneva.Mm.Shm

/-!
# Layout and lifetime of shared memory

The mappings of a process should be disjoint and sorted, and a segment should live until its
last mapping goes. A mapping that is taken away keeps this.
-/

namespace Xeneva.Mm.Shm

open Xeneva.Base

variable {s t : State} {k p : ℕ}

/-- The attachments of a process to a segment. -/
def attached (s : State) (k p : ℕ) : ℕ :=
  (((s.proc p).shmmaps).getD []).countP fun m => m.shm = k

def Attached (s : State) (k : ℕ) : Prop := ∃ p, attached s k p ≠ 0

/-- Disjoint and sorted ranges inside the area of the process. -/
structure Laid (maps : List AuSHMMappings) (shm_break : ℕ) : Prop where
  sorted : maps.Pairwise fun a b => a.start_addr + a.length ≤ b.start_addr
  start : ∀ m ∈ maps, USER_SHARED_MEM_START ≤ m.start_addr
  stop : ∀ m ∈ maps, m.start_addr + m.length ≤ shm_break
  positive : ∀ m ∈ maps, 0 < m.length

structure Sound (s : State) : Prop where
  laid : ∀ p maps, (s.proc p).shmmaps = some maps → Laid maps (s.proc p).shm_break
  counted : ∀ k ∈ s.shm_list, Total (attached s k) (s.seg k).link_count
  live : ∀ k, Attached s k → k ∈ s.shm_list ∧ s.released k = 0
  once : ∀ k, s.released k ≤ 1

/-- A step releases the frames of a segment just when it takes its last mapping away. -/
def ReleasedAtLast (s t : State) : Prop :=
  ∀ k, AtLast (Attached s k) (Attached t k) (s.released k) (t.released k)

/-- The step wraps no link count and no address, and a mapping that is made gets its place in
the list of the process. The frame array fits into the size that `kmalloc` takes. -/
def Fits (s : State) : ShmOp → Prop
  | .create _ sz _ => 8 * numFrames sz < 2 ^ 32
  | .obtain p id mem => mem.mapping → ∀ k ∈ auGetSHMByID s id,
    mem.entry ∧ (s.seg k).link_count + 1 < 2 ^ 16 ∧
      (s.proc p).shm_break + (s.seg k).num_frames * PAGE_SIZE < 2 ^ 64
  | .unmap _ _ => True
  | .exit _ => True

instance (s : State) : ∀ op, Decidable (Fits s op)
  | .create _ sz _ => inferInstanceAs (Decidable (8 * numFrames sz < 2 ^ 32))
  | .obtain p id mem => inferInstanceAs (Decidable (mem.mapping → ∀ k ∈ auGetSHMByID s id,
      mem.entry ∧ (s.seg k).link_count + 1 < 2 ^ 16 ∧
        (s.proc p).shm_break + (s.seg k).num_frames * PAGE_SIZE < 2 ^ 64))
  | .unmap _ _ => inferInstanceAs (Decidable True)
  | .exit _ => inferInstanceAs (Decidable True)

structure ShmInv (s : State) : Prop extends Sound s where
  nodup : s.shm_list.Nodup
  known : ∀ k ∈ s.shm_list, k < s.next
  held : ∀ k ∈ s.shm_list, s.released k = 0
  fresh : ∀ k, s.next ≤ k → s.released k = 0
  frames : ∀ k ∈ s.shm_list, 0 < (s.seg k).num_frames
  start : ∀ p, USER_SHARED_MEM_START ≤ (s.proc p).shm_break

/-! ## Addresses -/

theorem auGetSHMByID_mem {id : ℕ} (h : auGetSHMByID s id = some k) :
    k ∈ s.shm_list ∧ (s.seg k).id = id := by
  constructor
  · exact List.mem_of_find?_eq_some h
  · simpa using List.find?_some h

/-- A gap lies at or after the end of the mappings before it, and before one of the rest. -/
theorem findGap_spec {length last start bound : ℕ} {maps : List AuSHMMappings}
    (hs : maps.Pairwise fun a b => a.start_addr + a.length ≤ b.start_addr)
    (hb : ∀ m ∈ maps, m.start_addr + m.length ≤ bound) (h64 : bound < 2 ^ 64)
    (hl : ∀ m ∈ maps, last ≤ m.start_addr) (h : findGap length last maps = some start) :
    last ≤ start ∧ start + length ≤ bound ∧ ∀ m ∈ maps,
      m.start_addr + m.length ≤ start ∨ start + length ≤ m.start_addr := by
  induction maps generalizing last with
  | nil => exact absurd h (by simp [findGap])
  | cons mapping rest ih =>
    obtain ⟨hm, hr⟩ := List.pairwise_cons.mp hs
    have hmb := hb mapping List.mem_cons_self
    have hml := hl mapping List.mem_cons_self
    unfold findGap at h
    split at h
    case isTrue hg =>
      have he : last = start := Option.some.inj h
      refine ⟨he.le, by omega, ?_⟩
      intro m hmem
      rcases List.mem_cons.mp hmem with hmem | hmem
      · rw [hmem]
        omega
      · have := hm m hmem
        omega
    case isFalse hg =>
      have hmod : (mapping.start_addr + mapping.length) % 2 ^ 64 =
          mapping.start_addr + mapping.length := Nat.mod_eq_of_lt (by omega)
      rw [hmod] at h
      have hrest := ih hr (fun m hmem => hb m (List.mem_cons_of_mem _ hmem)) hm h
      refine ⟨by omega, hrest.2.1, ?_⟩
      intro m hmem
      rcases List.mem_cons.mp hmem with hmem | hmem
      · rw [hmem]
        omega
      · exact hrest.2.2 m hmem

/-- The address that is found keeps clear of all mappings. -/
theorem auSHMFindAddress_spec {length brk : ℕ} {maps : List AuSHMMappings} (hl : Laid maps brk)
    (hs : USER_SHARED_MEM_START ≤ brk) (h64 : brk + length < 2 ^ 64) :
    let found := auSHMFindAddress maps brk length
    USER_SHARED_MEM_START ≤ found.1 ∧ found.1 + length ≤ found.2 ∧ brk ≤ found.2 ∧ ∀ m ∈ maps,
      m.start_addr + m.length ≤ found.1 ∨ found.1 + length ≤ m.start_addr := by
  unfold auSHMFindAddress
  split
  case h_1 start hg =>
    have h := findGap_spec hl.sorted hl.stop (by omega) hl.start hg
    exact ⟨h.1, h.2.1, le_rfl, h.2.2⟩
  case h_2 hg =>
    split
    case isTrue he =>
      refine ⟨le_rfl, ?_, le_rfl, ?_⟩
      · show USER_SHARED_MEM_START + length ≤ brk
        omega
      · intro m hm
        rw [he.1] at hm
        exact absurd hm List.not_mem_nil
    case isFalse he =>
      have hmod : (brk + length) % 2 ^ 64 = brk + length := Nat.mod_eq_of_lt h64
      rw [hmod]
      refine ⟨hs, le_rfl, Nat.le_add_right brk length, ?_⟩
      intro m hm
      exact Or.inl (hl.stop m hm)

/-- A new mapping that keeps clear of the others is put in its place. -/
theorem Laid.insert {brk brk' : ℕ} {maps : List AuSHMMappings} {new : AuSHMMappings}
    (hl : Laid maps brk) (hb : brk ≤ brk') (hs : USER_SHARED_MEM_START ≤ new.start_addr)
    (he : new.start_addr + new.length ≤ brk') (hp : 0 < new.length)
    (hd : ∀ m ∈ maps, m.start_addr + m.length ≤ new.start_addr ∨
      new.start_addr + new.length ≤ m.start_addr) :
    Laid (auSHMProcOrderList (maps ++ [new])) brk' := by
  have hperm : (auSHMProcOrderList (maps ++ [new])).Perm (maps ++ [new]) :=
    exchangeSort_perm (maps ++ [new])
  have hall : ∀ P : AuSHMMappings → Prop, (∀ m ∈ maps, P m) → P new →
      ∀ m ∈ auSHMProcOrderList (maps ++ [new]), P m := by
    intro P hm hn m hmem
    rcases List.mem_append.mp (hperm.subset hmem) with h | h
    · exact hm m h
    · rw [List.mem_singleton.mp h]
      exact hn
  have hpos := hall (fun m => 0 < m.length) hl.positive hp
  refine ⟨?_, hall _ hl.start hs, hall _ (fun m hm => (hl.stop m hm).trans hb) he, hpos⟩
  -- Ranges that are apart and sorted by their starts follow each other.
  let apart (a b : AuSHMMappings) : Prop :=
    a.start_addr + a.length ≤ b.start_addr ∨ b.start_addr + b.length ≤ a.start_addr
  have happart : (auSHMProcOrderList (maps ++ [new])).Pairwise apart := by
    rw [hperm.pairwise_iff fun h => h.symm]
    apply List.pairwise_append.mpr
    refine ⟨hl.sorted.imp fun h => Or.inl h, List.pairwise_singleton _ _, ?_⟩
    intro a ha b hb
    rw [List.mem_singleton.mp hb]
    exact hd a ha
  have hsorted : (auSHMProcOrderList (maps ++ [new])).Pairwise
      fun a b => a.start_addr ≤ b.start_addr := exchangeSort_sorted (maps ++ [new])
  apply (happart.and hsorted).imp_of_mem
  intro a b ha hb hab
  have h := hab.2
  have hb := hpos b hb
  rcases hab.1 with h' | h'
  · exact h'
  · omega

theorem Laid.sublist {brk : ℕ} {maps rest : List AuSHMMappings} (hl : Laid maps brk)
    (h : rest.Sublist maps) : Laid rest brk where
  sorted := hl.sorted.sublist h
  start m hm := hl.start m (h.subset hm)
  stop m hm := hl.stop m (h.subset hm)
  positive m hm := hl.positive m (h.subset hm)

theorem attached_of_maps {maps : List AuSHMMappings} (h : (s.proc p).shmmaps = some maps) (k : ℕ) :
    attached s k p = maps.countP fun m => m.shm = k := by
  rw [attached, h, Option.getD_some]

theorem attached_congr (h : t.proc p = s.proc p) (k : ℕ) : attached t k p = attached s k p := by
  rw [attached, h, attached]

/-- A process has attached what is in its list. -/
theorem attached_mem {maps : List AuSHMMappings} (h : (s.proc p).shmmaps = some maps)
    {m : AuSHMMappings} (hm : m ∈ maps) : Attached s m.shm := by
  refine ⟨p, ?_⟩
  rw [attached_of_maps h]
  apply Nat.ne_of_gt
  exact List.countP_pos_iff.mpr ⟨m, hm, by simp⟩

@[simp] theorem setProc_self (s : State) (p : ℕ) (proc : AuProcess) :
    (setProc s p proc).proc p = proc := Function.update_self _ _ _

@[simp] theorem auSHMRelease_proc (s : State) (k : ℕ) : (auSHMRelease s k).proc = s.proc := by
  unfold auSHMRelease
  simp only
  split <;> rfl

@[simp] theorem auSHMRelease_next (s : State) (k : ℕ) : (auSHMRelease s k).next = s.next := by
  unfold auSHMRelease
  simp only
  split <;> rfl

theorem auSHMRelease_seg_self (s : State) (k : ℕ) : (auSHMRelease s k).seg k =
    { s.seg k with link_count := (s.seg k).link_count - 1 } := by
  unfold auSHMRelease
  simp only
  split <;> exact Function.update_self _ _ _

theorem auSHMRelease_seg_ne (s : State) {k j : ℕ} (h : j ≠ k) :
    (auSHMRelease s k).seg j = s.seg j := by
  unfold auSHMRelease
  simp only
  split <;> exact Function.update_of_ne h _ _

theorem auSHMRelease_released_ne (s : State) {k j : ℕ} (h : j ≠ k) :
    (auSHMRelease s k).released j = s.released j := by
  unfold auSHMRelease
  simp only
  split
  · rfl
  · exact Function.update_of_ne h _ _

theorem auSHMRelease_kept (s : State) (k : ℕ) (h : (s.seg k).link_count - 1 ≠ 0) :
    (auSHMRelease s k).shm_list = s.shm_list ∧ (auSHMRelease s k).released = s.released := by
  unfold auSHMRelease
  simp only [if_pos h, and_self]

theorem auSHMRelease_freed (s : State) (k : ℕ) (h : (s.seg k).link_count - 1 = 0) :
    (auSHMRelease s k).shm_list = s.shm_list.erase k ∧
      (auSHMRelease s k).released k = s.released k + 1 := by
  unfold auSHMRelease
  simp only [if_neg (not_not.mpr h), Function.update_self, and_self]

/-! ## One mapping less -/

/-- No attachment is new, and frames are released with the last one. -/
structure Shrinks (s t : State) : Prop where
  sub : ∀ k, Attached t k → Attached s k
  exact : ReleasedAtLast s t

theorem Shrinks.refl (s : State) : Shrinks s s :=
  ⟨fun _ h => h, fun _ => AtLast.kept id _⟩

theorem Shrinks.trans {u : State} (h : Shrinks s t) (h' : Shrinks t u) : Shrinks s u :=
  ⟨fun k hk => h.sub k (h'.sub k hk),
    fun k => (h.exact k).trans (h'.exact k) (h.sub k) (h'.sub k)⟩

/-- The state after the mapping `m` of the process was taken away. -/
def detachMapping (s : State) (p : ℕ) (rest : List AuSHMMappings) (m : AuSHMMappings) : State :=
  auSHMRelease (setMaps s p (some rest)) m.shm

section Detach

variable {maps rest : List AuSHMMappings} {m : AuSHMMappings}

theorem detach_proc_self : (detachMapping s p rest m).proc p =
    ⟨some rest, (s.proc p).shm_break⟩ := by
  rw [detachMapping, auSHMRelease_proc]
  exact Function.update_self _ _ _

theorem detach_proc_ne {q : ℕ} (h : q ≠ p) : (detachMapping s p rest m).proc q = s.proc q := by
  rw [detachMapping, auSHMRelease_proc]
  exact Function.update_of_ne h _ _

theorem detach_attached_self : attached (detachMapping s p rest m) k p =
    rest.countP fun m => m.shm = k := by
  apply attached_of_maps
  rw [detach_proc_self]

/-- The listed segments after a mapping was taken away. -/
theorem mem_detach_list (hi : ShmInv s) : k ∈ (detachMapping s p rest m).shm_list ↔
    k ∈ s.shm_list ∧ (k = m.shm → (s.seg m.shm).link_count - 1 ≠ 0) := by
  by_cases hc : (s.seg m.shm).link_count - 1 = 0
  · rw [detachMapping, (auSHMRelease_freed (setMaps s p (some rest)) m.shm hc).1]
    apply hi.nodup.mem_erase_iff.trans
    constructor
    · intro h
      exact ⟨h.2, fun he => absurd he h.1⟩
    · intro h
      exact ⟨fun he => absurd hc (h.2 he), h.1⟩
  · rw [detachMapping, (auSHMRelease_kept (setMaps s p (some rest)) m.shm hc).1]
    constructor
    · intro h
      exact ⟨h, fun _ => hc⟩
    · intro h
      exact h.1

/-- A segment that is still listed was not released. -/
theorem detach_held (hi : ShmInv s) (hk : k ∈ (detachMapping s p rest m).shm_list) :
    (detachMapping s p rest m).released k = 0 := by
  obtain ⟨hs, hc⟩ := (mem_detach_list hi).mp hk
  have h0 := hi.held k hs
  by_cases he : k = m.shm
  · rw [detachMapping, (auSHMRelease_kept (setMaps s p (some rest)) m.shm (hc he)).2]
    exact h0
  · rw [detachMapping, auSHMRelease_released_ne _ he]
    exact h0

variable (hm : (s.proc p).shmmaps = some maps) (hp : maps.Perm (m :: rest))
include hm hp

theorem detach_attached (k : ℕ) :
    attached s k p = attached (detachMapping s p rest m) k p + if m.shm = k then 1 else 0 := by
  rw [attached_of_maps hm, detach_attached_self, hp.countP_eq, List.countP_cons]
  simp

/-- Other segments keep their attachments. -/
theorem detach_other (hk : k ≠ m.shm) : attached (detachMapping s p rest m) k = attached s k := by
  funext q
  by_cases hq : q = p
  · have h := detach_attached hm hp k
    rw [if_neg hk.symm] at h
    rw [hq, h, Nat.add_zero]
  · exact attached_congr (detach_proc_ne hq) k

theorem detach_total {n : ℕ} (h : Total (attached s m.shm) n) :
    Total (attached (detachMapping s p rest m) m.shm) (n - 1) := by
  apply h.pred p
  · intro q hq
    exact attached_congr (detach_proc_ne hq) _
  · have h := detach_attached hm hp m.shm
    rw [if_pos rfl] at h
    exact h

theorem detach_sub (hk : Attached (detachMapping s p rest m) k) : Attached s k := by
  by_cases h : k = m.shm
  · rw [h]
    exact attached_mem hm (hp.symm.subset List.mem_cons_self)
  · simp only [Attached, detach_other hm hp h] at hk
    exact hk

/-- A segment that keeps a mapping stays, and one that loses its last mapping is released. -/
theorem detach_shrinks (hi : ShmInv s) : Shrinks s (detachMapping s p rest m) := by
  refine ⟨fun k => detach_sub hm hp, fun k => ?_⟩
  have hatt := attached_mem hm (hp.symm.subset List.mem_cons_self)
  by_cases hk : k = m.shm
  · rw [hk]
    have htot := detach_total hm hp (hi.counted _ (hi.live _ hatt).1)
    by_cases hc : (s.seg m.shm).link_count - 1 = 0
    · have hend : ¬Attached (detachMapping s p rest m) m.shm := fun h =>
        absurd (htot.pos_iff.mpr h) (by omega)
      have hrel := (auSHMRelease_freed (setMaps s p (some rest)) m.shm hc).2
      rw [detachMapping, hrel]
      exact AtLast.ended hatt hend _
    · have hrel := (auSHMRelease_kept (setMaps s p (some rest)) m.shm hc).2
      have hkeep := htot.pos_iff.mp (Nat.pos_of_ne_zero hc)
      rw [detachMapping, hrel]
      exact AtLast.kept (fun _ => hkeep) _
  · have hrel := auSHMRelease_released_ne (setMaps s p (some rest)) hk
    rw [detachMapping, hrel]
    apply AtLast.kept
    intro h
    show ∃ q, attached (detachMapping s p rest m) k q ≠ 0
    rw [detach_other hm hp hk]
    exact h

theorem detach_released_le (hi : ShmInv s) (k : ℕ) :
    (detachMapping s p rest m).released k ≤ 1 := by
  have hone := hi.once k
  have hlast := (detach_shrinks hm hp hi).exact k
  by_cases hc : Attached s k ∧ ¬Attached (detachMapping s p rest m) k
  · rw [hlast.1 hc, (hi.live k hc.1).2]
  · rw [hlast.2 hc]
    exact hone

theorem detach_inv (hi : ShmInv s) (hr : rest.Sublist maps) :
    ShmInv (detachMapping s p rest m) := by
  have hlive := hi.live _ (attached_mem hm (hp.symm.subset List.mem_cons_self))
  have hsub : ∀ k ∈ (detachMapping s p rest m).shm_list, k ∈ s.shm_list := fun k hk =>
    ((mem_detach_list hi).mp hk).1
  constructor
  · constructor
    · intro q maps' hq
      by_cases hqp : q = p
      · rw [hqp, detach_proc_self] at hq ⊢
        rw [← Option.some.inj hq]
        exact (hi.laid p maps hm).sublist hr
      · rw [detach_proc_ne hqp] at hq ⊢
        exact hi.laid q maps' hq
    · intro k hk
      by_cases hkm : k = m.shm
      · rw [hkm, detachMapping, auSHMRelease_seg_self]
        exact detach_total hm hp (hi.counted _ hlive.1)
      · rw [detach_other hm hp hkm, detachMapping, auSHMRelease_seg_ne _ hkm]
        exact hi.counted k (hsub k hk)
    · intro k hk
      have hlist : k ∈ (detachMapping s p rest m).shm_list := by
        refine (mem_detach_list hi).mpr ⟨(hi.live k (detach_sub hm hp hk)).1, fun he => ?_⟩
        rw [he] at hk
        exact Nat.ne_of_gt ((detach_total hm hp (hi.counted _ hlive.1)).pos_iff.mpr hk)
      exact ⟨hlist, detach_held hi hlist⟩
    · exact detach_released_le hm hp hi
  · by_cases hz : (s.seg m.shm).link_count - 1 = 0
    · rw [detachMapping, (auSHMRelease_freed (setMaps s p (some rest)) m.shm hz).1]
      exact hi.nodup.erase _
    · rw [detachMapping, (auSHMRelease_kept (setMaps s p (some rest)) m.shm hz).1]
      exact hi.nodup
  · intro k hk
    rw [detachMapping, auSHMRelease_next]
    exact hi.known k (hsub k hk)
  · intro k hk
    exact detach_held hi hk
  · intro k hk
    have hle : s.next ≤ k := by
      rw [detachMapping, auSHMRelease_next] at hk
      exact hk
    have hlt := hi.known _ hlive.1
    have hkm : k ≠ m.shm := by omega
    rw [detachMapping, auSHMRelease_released_ne _ hkm]
    exact hi.fresh k hle
  · intro k hk
    by_cases hkm : k = m.shm
    · rw [hkm, detachMapping, auSHMRelease_seg_self]
      exact hi.frames _ hlive.1
    · rw [detachMapping, auSHMRelease_seg_ne _ hkm]
      exact hi.frames k (hsub k hk)
  · intro q
    by_cases hqp : q = p
    · rw [hqp, detach_proc_self]
      exact hi.start p
    · rw [detach_proc_ne hqp]
      exact hi.start q

end Detach

/-- A process without mappings may lose its list. -/
theorem ShmInv.exited (hi : ShmInv s) (hm : (s.proc p).shmmaps = some []) :
    ShmInv (setMaps s p none) ∧ Shrinks s (setMaps s p none) := by
  have hatt : ∀ k, attached (setMaps s p none) k = attached s k := by
    intro k
    funext q
    by_cases hq : q = p
    · rw [hq, attached_of_maps hm]
      simp [attached, setMaps, setProc]
    · exact attached_congr (Function.update_of_ne hq _ _) k
  have hsame : ∀ k, Attached (setMaps s p none) k ↔ Attached s k := by
    intro k
    rw [Attached, hatt, Attached]
  have hproc : ∀ q, ((setMaps s p none).proc q).shm_break = (s.proc q).shm_break := by
    intro q
    by_cases hq : q = p
    · simp [hq, setMaps, setProc]
    · simp [setMaps, setProc, Function.update_of_ne hq]
  refine ⟨⟨⟨?_, ?_, ?_, hi.once⟩, hi.nodup, hi.known, hi.held, hi.fresh, hi.frames, ?_⟩, ?_⟩
  · intro q maps hq
    rw [hproc]
    by_cases hqp : q = p
    · simp [hqp, setMaps, setProc] at hq
    · simp only [setMaps, setProc, Function.update_of_ne hqp] at hq
      exact hi.laid q maps hq
  · intro k hk
    rw [hatt]
    exact hi.counted k hk
  · intro k hk
    exact hi.live k ((hsame k).mp hk)
  · intro q
    rw [hproc]
    exact hi.start q
  · refine ⟨fun k => (hsame k).mp, fun k => ?_⟩
    exact AtLast.kept (hsame k).mpr _

theorem unmapLoop_inv (hi : ShmInv s) {maps : List AuSHMMappings}
    (hm : (s.proc p).shmmaps = some maps) : ShmInv (unmapLoop p maps s) ∧
      Shrinks s (unmapLoop p maps s) ∧ ((unmapLoop p maps s).proc p).shmmaps = some [] := by
  induction maps generalizing s with
  | nil => exact ⟨hi, .refl s, hm⟩
  | cons m rest ih =>
    have hstep := detach_inv hm (List.Perm.refl _) hi (List.sublist_cons_self m rest)
    have hsh := detach_shrinks hm (List.Perm.refl _) hi
    have hrest : ((detachMapping s p rest m).proc p).shmmaps = some rest := by
      rw [detach_proc_self]
    obtain ⟨hinv, hs, he⟩ := ih hstep hrest
    exact ⟨hinv, hsh.trans hs, he⟩

theorem unmapAll_inv (hi : ShmInv s) (p : ℕ) :
    ShmInv (auSHMUnmapAll s p) ∧ Shrinks s (auSHMUnmapAll s p) := by
  unfold auSHMUnmapAll
  split
  · exact ⟨hi, .refl s⟩
  case h_2 maps hm =>
    obtain ⟨hinv, hs, he⟩ := unmapLoop_inv hi hm
    obtain ⟨hinv', hs'⟩ := hinv.exited he
    exact ⟨hinv', hs.trans hs'⟩

theorem unmap_inv (hi : ShmInv s) (key p : ℕ) :
    ShmInv (auSHMUnmap s key p) ∧ Shrinks s (auSHMUnmap s key p) := by
  unfold auSHMUnmap
  split
  · exact ⟨hi, .refl s⟩
  case h_2 maps hm =>
    split
    · exact ⟨hi, .refl s⟩
    case h_2 k hk =>
      split
      · exact ⟨hi, .refl s⟩
      case h_2 mapping hf =>
        obtain ⟨hmk, before, after, hsplit, hbefore⟩ := List.find?_eq_some_iff_append.mp hf
        have herase : maps.eraseP (fun m => decide (m.shm = k)) = before ++ after := by
          rw [hsplit, List.eraseP_append_right _ (by simpa using hbefore)]
          simp only [List.eraseP_cons, hmk, cond_true]
        have hperm : maps.Perm (mapping :: (before ++ after)) := by
          rw [hsplit]
          exact List.perm_middle
        rw [herase]
        have hsub : (before ++ after).Sublist maps := by
          rw [hsplit]
          exact (List.sublist_cons_self mapping after).append_left before
        exact ⟨detach_inv hm hperm hi hsub, detach_shrinks hm hperm hi⟩

end Xeneva.Mm.Shm
