import Xeneva.Mm.ShmLayout

/-!
# Runs of the shared-memory calls

Layout and lifetime are kept as long as no link count wraps.
-/

namespace Xeneva.Mm.Shm

open Xeneva.Base

variable {s t : State} {k p : ℕ}

/-! ## A segment or a mapping more -/

theorem ReleasedAtLast.kept (h : ∀ k, Attached s k → Attached t k)
    (hr : t.released = s.released) : ReleasedAtLast s t := by
  intro k
  rw [hr]
  exact AtLast.kept (h k) _

theorem ShmInv.newSegment (hi : ShmInv s) {shm : AuSHM} (hl : shm.link_count = 0)
    (hf : 0 < shm.num_frames) {new : List ℕ} (hn : new.Sublist [s.next]) (id : ℕ) :
    ShmInv { s with
      shm_id := id
      seg := Function.update s.seg s.next shm
      next := s.next + 1
      shm_list := s.shm_list ++ new } := by
  have hmem : ∀ k, k ∈ s.shm_list ++ new → k ∈ s.shm_list ∨ k = s.next := by
    intro k hk
    rcases List.mem_append.mp hk with h | h
    · exact Or.inl h
    · exact Or.inr (List.mem_singleton.mp (hn.subset h))
  have hold : ∀ k, k ∈ s.shm_list → k ≠ s.next := fun k hk => Nat.ne_of_lt (hi.known k hk)
  have hnone : attached s s.next = fun _ => 0 := by
    funext q
    by_contra hc
    exact hold _ (hi.live _ ⟨q, hc⟩).1 rfl
  refine ⟨⟨hi.laid, ?_, ?_, hi.once⟩, ?_, ?_, ?_, ?_, ?_, hi.start⟩
  · intro k hk
    rcases hmem k hk with h | h
    · simp only [Function.update_of_ne (hold k h)]
      exact hi.counted k h
    · rw [h]
      simp only [Function.update_self, hl]
      show Total (attached s s.next) 0
      rw [hnone]
      exact Total.zero
  · intro k hk
    have h := hi.live k hk
    exact ⟨List.mem_append_left _ h.1, h.2⟩
  · apply hi.nodup.append (hn.nodup (List.nodup_singleton _))
    intro k hk hkn
    exact hold k hk (List.mem_singleton.mp (hn.subset hkn))
  · intro k hk
    rcases hmem k hk with h | h
    · exact Nat.lt_succ_of_lt (hi.known k h)
    · exact h ▸ Nat.lt_succ_self _
  · intro k hk
    rcases hmem k hk with h | h
    · exact hi.held k h
    · exact hi.fresh k (le_of_eq h.symm)
  · intro k hk
    exact hi.fresh k (Nat.le_of_succ_le hk)
  · intro k hk
    rcases hmem k hk with h | h
    · simp only [Function.update_of_ne (hold k h)]
      exact hi.frames k h
    · rw [h]
      simp only [Function.update_self]
      exact hf

theorem create_inv (hi : ShmInv s) (key sz : ℕ) (mem : CreateMem) :
    ShmInv (auCreateSHM s key sz mem).1 ∧ ReleasedAtLast s (auCreateSHM s key sz mem).1 := by
  rcases auCreateSHM_cases s key sz mem with ⟨k, -, he⟩ | ⟨id, he⟩ | ⟨-, -, hf, he⟩
  · rw [he]
    exact ⟨hi, .kept (fun _ h => h) rfl⟩
  · rw [he]
    exact ⟨⟨⟨hi.laid, hi.counted, hi.live, hi.once⟩, hi.nodup, hi.known, hi.held, hi.fresh,
      hi.frames, hi.start⟩, .kept (fun _ h => h) rfl⟩
  · rw [he]
    refine ⟨hi.newSegment rfl hf ?_ _, .kept (fun _ h => h) rfl⟩
    split
    · exact List.Sublist.refl _
    · exact List.nil_sublist _

/-- An attachment changes nothing, or adds a mapping that it found a place for. -/
theorem auSHMObtainMem_cases (s : State) (p id : ℕ) (mem : ObtainMem) :
    auSHMObtainMem s p id mem = (s, 0) ∨ ∃ maps k, (s.proc p).shmmaps = some maps ∧
      auGetSHMByID s id = some k ∧ mem.mapping ∧
      let length := (s.seg k).num_frames * PAGE_SIZE % 2 ^ 64
      let found := auSHMFindAddress maps (s.proc p).shm_break length
      let maps := maps ++ if mem.entry then [⟨found.1, length, k⟩] else []
      auSHMObtainMem s p id mem =
        (setProc (auSHMRetain s k) p ⟨some (auSHMProcOrderList maps), found.2⟩, found.1) := by
  unfold auSHMObtainMem
  split
  · exact Or.inl rfl
  case h_2 maps hm =>
    split
    · exact Or.inl rfl
    case h_2 k hk =>
      split
      · exact Or.inl rfl
      case isFalse hmem => exact Or.inr ⟨maps, k, hm, hk, by simpa using hmem, rfl⟩

/-- The state after a mapping of the segment was added to the list of the process. -/
theorem ShmInv.attach (hi : ShmInv s) {maps maps' : List AuSHMMappings} {new : AuSHMMappings}
    (hm : (s.proc p).shmmaps = some maps) (hk : new.shm ∈ s.shm_list)
    (hc : (s.seg new.shm).link_count + 1 < 2 ^ 16) (hp : maps'.Perm (maps ++ [new])) {brk : ℕ}
    (hl : Laid maps' brk) (hb : (s.proc p).shm_break ≤ brk) :
    ShmInv (setProc (auSHMRetain s new.shm) p ⟨some maps', brk⟩) ∧
      ReleasedAtLast s (setProc (auSHMRetain s new.shm) p ⟨some maps', brk⟩) := by
  set u := setProc (auSHMRetain s new.shm) p ⟨some maps', brk⟩ with hu
  have hself : u.proc p = ⟨some maps', brk⟩ := Function.update_self _ _ _
  have hne : ∀ q, q ≠ p → u.proc q = s.proc q := fun q hq => Function.update_of_ne hq _ _
  have hseg : u.seg new.shm =
      { s.seg new.shm with link_count := (s.seg new.shm).link_count + 1 } := by
    show Function.update s.seg new.shm _ new.shm = _
    rw [Function.update_self, Nat.mod_eq_of_lt hc]
  have hsegne : ∀ k, k ≠ new.shm → u.seg k = s.seg k := fun k hk => Function.update_of_ne hk _ _
  have hcount : ∀ k, attached u k p = attached s k p + if new.shm = k then 1 else 0 := by
    intro k
    have hup : (u.proc p).shmmaps = some maps' := by rw [hself]
    rw [attached_of_maps hup, attached_of_maps hm, hp.countP_eq, List.countP_append]
    simp [List.countP_cons]
  have hother : ∀ k q, q ≠ p → attached u k q = attached s k q := fun k q hq =>
    attached_congr (hne q hq) k
  have hmono : ∀ k, Attached s k → Attached u k := by
    intro k ⟨q, hq⟩
    refine ⟨q, ?_⟩
    by_cases hqp : q = p
    · rw [hqp, hcount k]
      rw [hqp] at hq
      omega
    · rw [hother k q hqp]
      exact hq
  refine ⟨⟨⟨?_, ?_, ?_, hi.once⟩, hi.nodup, hi.known, hi.held, hi.fresh, ?_, ?_⟩,
    .kept hmono rfl⟩
  · intro q maps₀ hq
    by_cases hqp : q = p
    · rw [hqp, hself] at hq ⊢
      exact Option.some.inj hq ▸ hl
    · rw [hne q hqp] at hq ⊢
      exact hi.laid q maps₀ hq
  · intro k hk
    have htot := hi.counted k hk
    by_cases hkn : k = new.shm
    · rw [hkn] at htot ⊢
      rw [hseg]
      apply htot.succ p (hother new.shm)
      rw [hcount, if_pos rfl]
    · have hsame : attached u k = attached s k := by
        funext q
        by_cases hqp : q = p
        · rw [hqp, hcount k, if_neg (Ne.symm hkn), Nat.add_zero]
        · exact hother k q hqp
      rw [hsame, hsegne k hkn]
      exact htot
  · intro k ⟨q, hq⟩
    by_cases hkn : k = new.shm
    · exact ⟨hkn ▸ hk, hkn ▸ hi.held _ hk⟩
    · apply hi.live k
      refine ⟨q, ?_⟩
      by_cases hqp : q = p
      · rw [hqp, hcount k, if_neg (Ne.symm hkn), Nat.add_zero] at hq
        rw [hqp]
        exact hq
      · rw [← hother k q hqp]
        exact hq
  · intro k hk
    by_cases hkn : k = new.shm
    · rw [hkn, hseg]
      exact hi.frames _ (hkn ▸ hk)
    · rw [hsegne k hkn]
      exact hi.frames k hk
  · intro q
    by_cases hqp : q = p
    · rw [hqp, hself]
      exact (hi.start p).trans hb
    · rw [hne q hqp]
      exact hi.start q

theorem obtain_inv (hi : ShmInv s) {id : ℕ} {mem : ObtainMem} (h : Fits s (.obtain p id mem)) :
    ShmInv (auSHMObtainMem s p id mem).1 ∧ ReleasedAtLast s (auSHMObtainMem s p id mem).1 := by
  rcases auSHMObtainMem_cases s p id mem with he | ⟨maps, k, hm, hk, hmem, he⟩
  · rw [he]
    exact ⟨hi, .kept (fun _ h => h) rfl⟩
  · obtain ⟨hentry, hcount, hbreak⟩ := h hmem k hk
    have hlist := (auGetSHMByID_mem hk).1
    have hlen : (s.seg k).num_frames * PAGE_SIZE % 2 ^ 64 = (s.seg k).num_frames * PAGE_SIZE :=
      Nat.mod_eq_of_lt (by omega)
    have hpos : 0 < (s.seg k).num_frames * PAGE_SIZE :=
      Nat.mul_pos (hi.frames k hlist) (by decide)
    have hfound := auSHMFindAddress_spec (hi.laid p maps hm) (hi.start p) hbreak
    rw [he]
    simp only [hlen, hentry, if_true]
    let length := (s.seg k).num_frames * PAGE_SIZE
    let new : AuSHMMappings :=
      ⟨(auSHMFindAddress maps (s.proc p).shm_break length).1, length, k⟩
    have hl : Laid (auSHMProcOrderList (maps ++ [new])) _ :=
      (hi.laid p maps hm).insert hfound.2.2.1 hfound.1 hfound.2.1 hpos hfound.2.2.2
    exact hi.attach hm hlist hcount (exchangeSort_perm _) hl hfound.2.2.1

theorem ShmInv.step (hi : ShmInv s) {op : ShmOp} (h : Fits s op) :
    ShmInv (shmStep s op) ∧ ReleasedAtLast s (shmStep s op) := by
  cases op with
  | create key sz mem => exact create_inv hi key sz mem
  | obtain p id mem => exact obtain_inv hi h
  | unmap key p => exact (unmap_inv hi key p).imp_right Shrinks.exact
  | exit p => exact (unmapAll_inv hi p).imp_right Shrinks.exact

theorem bootShm_attached (k : ℕ) : ¬Attached bootShm k := by
  intro ⟨p, hp⟩
  exact hp rfl

theorem shmInv_boot : ShmInv bootShm where
  laid p maps h := by
    rw [← Option.some.inj h]
    exact ⟨List.Pairwise.nil, by simp, by simp, by simp⟩
  counted k hk := absurd hk List.not_mem_nil
  live k hk := absurd hk (bootShm_attached k)
  once _ := Nat.zero_le 1
  nodup := List.nodup_nil
  known _ hk := absurd hk List.not_mem_nil
  held _ _ := rfl
  fresh _ _ := rfl
  frames _ hk := absurd hk List.not_mem_nil
  start _ := le_rfl

/-- In every run whose steps fit, the mappings of a process are always disjoint and sorted, link
counts are exact, and the frames of a segment are released once, with its last mapping. -/
theorem exec_shmLayout (ops : List ShmOp) (h : Respects Fits shmStep bootShm ops) :
    Sound (run shmStep bootShm ops) ∧
      Respects (fun s op => ReleasedAtLast s (shmStep s op)) shmStep bootShm ops := by
  constructor
  · have hinv := h.invariant (I := ShmInv) (fun _ _ hi ho => (hi.step ho).1) shmInv_boot
    exact hinv.toSound
  · exact h.imp (I := ShmInv) (fun _ _ hi ho => hi.step ho) shmInv_boot

/-! ### A window buffer -/

def allMem : CreateMem := ⟨true, true, true, true⟩

def aSegment : State := run shmStep bootShm [.create 5 4096 allMem]

/-- Two processes share a segment, one lets it go and one exits. -/
theorem exec_shmLayout_shared : Sound (run shmStep bootShm [.create 5 8192 allMem,
    .obtain 0 1 ⟨true, true⟩, .obtain 1 1 ⟨true, true⟩, .unmap 5 0, .exit 1]) ∧
    Respects (fun s op => ReleasedAtLast s (shmStep s op)) shmStep bootShm [.create 5 8192 allMem,
      .obtain 0 1 ⟨true, true⟩, .obtain 1 1 ⟨true, true⟩, .unmap 5 0, .exit 1] := by
  apply exec_shmLayout
  decide +kernel

/-- Every attachment of the segment counts, modulo the width of its link count. -/
theorem many_obtains (n : ℕ) :
    let s := run shmStep aSegment (List.replicate n (.obtain 0 1 ⟨true, true⟩))
    s.shm_list = [0] ∧ (s.seg 0).id = 1 ∧ (s.seg 0).link_count = n % 2 ^ 16 ∧
      ∃ maps, (s.proc 0).shmmaps = some maps ∧ (maps.countP fun m => m.shm = 0) = n := by
  induction n with
  | zero => exact ⟨by decide +kernel, by decide +kernel, by decide +kernel, [], rfl, rfl⟩
  | succ n ih =>
    rw [List.replicate_succ', run_append]
    simp only [run_cons, run_nil]
    set s := run shmStep aSegment (List.replicate n (.obtain 0 1 ⟨true, true⟩))
    obtain ⟨hlist, hid, hlink, maps, hm, hcount⟩ := ih
    have hfind : auGetSHMByID s 1 = some 0 := by
      rw [auGetSHMByID, hlist]
      simp [hid]
    simp only [shmStep, auSHMObtainMem, hm, hfind, Bool.not_true, Bool.false_eq_true, if_false,
      if_true, setProc_self]
    refine ⟨hlist, ?_, ?_, _, rfl, ?_⟩
    · simp [setProc, auSHMRetain, hid]
    · simp only [setProc, auSHMRetain, Function.update_self, hlink, Nat.mod_add_mod]
    · rw [auSHMProcOrderList, (exchangeSort_perm _).countP_eq, List.countP_append, hcount]
      rfl

/-- A link count of 0 says that there is no attachment. -/
theorem many_unsound {n : ℕ} (hn : n % 2 ^ 16 = 0) (h0 : 0 < n) :
    ¬Sound (run shmStep aSegment (List.replicate n (.obtain 0 1 ⟨true, true⟩))) := by
  intro hs
  obtain ⟨hlist, -, hlink, maps, hm, hcount⟩ := many_obtains n
  have htot := hs.counted 0 (hlist ▸ List.mem_singleton_self 0)
  have hle := htot.le 0
  rw [attached_of_maps hm, hcount, hlink, hn] at hle
  omega

/-- With 65536 attachments the link count of a segment is 0. -/
theorem not_exec_shmLayout : ¬∀ ops : List ShmOp, Sound (run shmStep bootShm ops) ∧
    Respects (fun s op => ReleasedAtLast s (shmStep s op)) shmStep bootShm ops := by
  intro h
  obtain ⟨n, hn, h0⟩ : ∃ n, n % 2 ^ 16 = 0 ∧ 0 < n := ⟨2 ^ 16, Nat.mod_self _, by decide⟩
  have hs := (h (.create 5 4096 allMem :: List.replicate n (.obtain 0 1 ⟨true, true⟩))).1
  exact many_unsound hn h0 hs

end Xeneva.Mm.Shm
