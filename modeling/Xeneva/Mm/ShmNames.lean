import Xeneva.Base.Run
import Xeneva.Mm.Shm

/-!
# Names of shared memory

Ids come from a 16-bit counter, and a creation with the key of a segment gives that segment.
-/

namespace Xeneva.Mm.Shm

open Xeneva.Base

variable {s t : State} {k p : ℕ}

/-- The ids of the live segments are distinct, and each leads to its segment. -/
structure Named (s : State) : Prop where
  ids : (s.shm_list.map fun k => (s.seg k).id).Nodup
  found : ∀ k ∈ s.shm_list, auGetSHMByID s (s.seg k).id = some k

/-- A creation that succeeds gives the id of a live segment with its key and its size. -/
def CreateKept (s : State) : ShmOp → Prop
  | .create key sz mem =>
    let r := auCreateSHM s key sz mem
    r.2 ≠ -1 → ∃ k ∈ r.1.shm_list, r.2 = (r.1.seg k).id ∧ (r.1.seg k).key = key ∧
      sz ≤ (r.1.seg k).num_frames * PAGE_SIZE
  | _ => True

/-- The segment that has the key is large enough; a new one is listed, under an id that no live
segment has, and its frame array fits into the size that `kmalloc` takes. No link count wraps. -/
def Distinct (s : State) : ShmOp → Prop
  | .create key sz mem =>
    match auGetSHMSeg s key with
    | some k => sz ≤ (s.seg k).num_frames * PAGE_SIZE
    | none => 8 * numFrames sz < 2 ^ 32 ∧ (mem.shm ∧ mem.frames ∧ mem.pages →
        mem.entry ∧ ∀ k ∈ s.shm_list, (s.seg k).id ≠ s.shm_id)
  | .obtain _ id mem => mem.mapping → ∀ k ∈ auGetSHMByID s id, (s.seg k).link_count + 1 < 2 ^ 16
  | .unmap _ _ => True
  | .exit _ => True

structure NamesInv (s : State) : Prop where
  ids : (s.shm_list.map fun k => (s.seg k).id).Nodup
  known : ∀ k ∈ s.shm_list, k < s.next

theorem NamesInv.named (hi : NamesInv s) : Named s := by
  refine ⟨hi.ids, fun k hk => ?_⟩
  have hsome : (auGetSHMByID s (s.seg k).id).isSome := by
    rw [auGetSHMByID, List.find?_isSome]
    exact ⟨k, hk, by simp⟩
  obtain ⟨j, hj⟩ := Option.isSome_iff_exists.mp hsome
  have hid : (s.seg j).id = (s.seg k).id := by
    have h := List.find?_some hj
    simpa using h
  rw [hj, List.inj_on_of_nodup_map hi.ids (List.mem_of_find?_eq_some hj) hk hid]

/-- No segment is listed anew, and none gets another name or size. -/
structure SameNames (s t : State) : Prop where
  list : t.shm_list.Sublist s.shm_list
  id : ∀ k, (t.seg k).id = (s.seg k).id
  key : ∀ k, (t.seg k).key = (s.seg k).key
  frames : ∀ k, (t.seg k).num_frames = (s.seg k).num_frames
  next : t.next = s.next

theorem SameNames.refl (s : State) : SameNames s s :=
  ⟨List.Sublist.refl _, fun _ => rfl, fun _ => rfl, fun _ => rfl, rfl⟩

theorem SameNames.trans {u : State} (h : SameNames s t) (h' : SameNames t u) : SameNames s u where
  list := h'.list.trans h.list
  id k := (h'.id k).trans (h.id k)
  key k := (h'.key k).trans (h.key k)
  frames k := (h'.frames k).trans (h.frames k)
  next := h'.next.trans h.next

theorem SameNames.inv (h : SameNames s t) (hi : NamesInv s) : NamesInv t := by
  constructor
  · have hids : (fun k => (t.seg k).id) = fun k => (s.seg k).id := funext h.id
    rw [hids]
    exact hi.ids.sublist (h.list.map _)
  · intro k hk
    rw [h.next]
    exact hi.known k (h.list.subset hk)

theorem update_field (s : State) (k : ℕ) (f : AuSHM → ℕ) {shm : AuSHM} (h : f shm = f (s.seg k))
    (j : ℕ) : f (Function.update s.seg k shm j) = f (s.seg j) := by
  by_cases hj : j = k
  · rw [hj, Function.update_self, h]
  · rw [Function.update_of_ne hj]

theorem sameNames_setProc (s : State) (p : ℕ) (proc : AuProcess) :
    SameNames s (setProc s p proc) :=
  ⟨List.Sublist.refl _, fun _ => rfl, fun _ => rfl, fun _ => rfl, rfl⟩

/-- New data of a segment that keeps its names and its size. -/
theorem sameNames_seg {l : List ℕ} (s : State) (k : ℕ) {shm : AuSHM} {r : ℕ → ℕ}
    (hl : l.Sublist s.shm_list) (hid : shm.id = (s.seg k).id) (hkey : shm.key = (s.seg k).key)
    (hf : shm.num_frames = (s.seg k).num_frames) :
    SameNames s { s with seg := Function.update s.seg k shm, shm_list := l, released := r } :=
  ⟨hl, update_field s k AuSHM.id hid, update_field s k AuSHM.key hkey,
    update_field s k AuSHM.num_frames hf, rfl⟩

theorem sameNames_retain (s : State) (k : ℕ) : SameNames s (auSHMRetain s k) :=
  sameNames_seg s k (List.Sublist.refl _) rfl rfl rfl

theorem sameNames_release (s : State) (k : ℕ) : SameNames s (auSHMRelease s k) := by
  unfold auSHMRelease
  simp only
  split
  · exact sameNames_seg s k (List.Sublist.refl _) rfl rfl rfl
  · exact sameNames_seg s k List.erase_sublist rfl rfl rfl

theorem sameNames_detach (s : State) (p : ℕ) (maps : Option (List AuSHMMappings)) (k : ℕ) :
    SameNames s (auSHMRelease (setMaps s p maps) k) :=
  (sameNames_setProc s p _).trans (sameNames_release _ k)

theorem sameNames_obtain (s : State) (p id : ℕ) (mem : ObtainMem) :
    SameNames s (auSHMObtainMem s p id mem).1 := by
  unfold auSHMObtainMem
  split
  · exact .refl s
  split
  · exact .refl s
  split
  · exact .refl s
  · exact (sameNames_retain s _).trans (sameNames_setProc _ p _)

theorem sameNames_unmap (s : State) (key p : ℕ) : SameNames s (auSHMUnmap s key p) := by
  unfold auSHMUnmap
  split
  · exact .refl s
  split
  · exact .refl s
  split
  · exact .refl s
  · exact sameNames_detach s p _ _

theorem sameNames_unmapLoop (p : ℕ) (maps : List AuSHMMappings) (s : State) :
    SameNames s (unmapLoop p maps s) := by
  induction maps generalizing s with
  | nil => exact .refl s
  | cons m rest ih => exact (sameNames_detach s p _ _).trans (ih _)

theorem sameNames_unmapAll (s : State) (p : ℕ) : SameNames s (auSHMUnmapAll s p) := by
  unfold auSHMUnmapAll
  split
  · exact .refl s
  · exact (sameNames_unmapLoop p _ s).trans (sameNames_setProc _ p _)

theorem le_numFrames (sz : ℕ) : sz ≤ numFrames sz * PAGE_SIZE := by
  unfold numFrames PAGE_SIZE
  split <;> omega

/-- A new segment with an id of its own. -/
theorem NamesInv.newSegment (hi : NamesInv s) {shm : AuSHM}
    (hid : ∀ k ∈ s.shm_list, (s.seg k).id ≠ shm.id) (id : ℕ) : NamesInv { s with
      shm_id := id
      seg := Function.update s.seg s.next shm
      next := s.next + 1
      shm_list := s.shm_list ++ [s.next] } := by
  have hold : ∀ k ∈ s.shm_list, (Function.update s.seg s.next shm k).id = (s.seg k).id := by
    intro k hk
    rw [Function.update_of_ne (Nat.ne_of_lt (hi.known k hk))]
  constructor
  · simp only [List.map_append, List.map_cons, List.map_nil, Function.update_self]
    rw [List.map_congr_left hold]
    apply hi.ids.append (List.nodup_singleton _)
    intro i hi' hn
    obtain ⟨k, hk, he⟩ := List.mem_map.mp hi'
    exact hid k hk (he.trans (List.mem_singleton.mp hn))
  · intro k hk
    rcases List.mem_append.mp hk with h | h
    · exact Nat.lt_succ_of_lt (hi.known k h)
    · rw [List.mem_singleton.mp h]
      exact Nat.lt_succ_self _

theorem create_named (hi : NamesInv s) {key sz : ℕ} {mem : CreateMem}
    (h : Distinct s (.create key sz mem)) :
    NamesInv (auCreateSHM s key sz mem).1 ∧ CreateKept s (.create key sz mem) := by
  simp only [Distinct] at h
  rcases auCreateSHM_cases s key sz mem with ⟨k, hkey, he⟩ | ⟨id, he⟩ | ⟨hkey, hmem, -, he⟩
  · simp only [hkey] at h
    have hfound := List.find?_some hkey
    simp only [CreateKept, he]
    refine ⟨hi, fun _ => ⟨k, List.mem_of_find?_eq_some hkey, rfl, ?_, h⟩⟩
    simpa using hfound
  · simp only [CreateKept, he]
    exact ⟨⟨hi.ids, hi.known⟩, fun hne => absurd rfl hne⟩
  · simp only [hkey] at h
    obtain ⟨hentry, hid⟩ := h.2 hmem
    simp only [CreateKept, he, if_pos hentry]
    refine ⟨hi.newSegment hid _, fun _ => ⟨s.next, ?_, ?_⟩⟩
    · exact List.mem_append_right _ (List.mem_singleton_self _)
    · simp only [Function.update_self, true_and]
      exact le_numFrames sz

theorem NamesInv.step (hi : NamesInv s) {op : ShmOp} (h : Distinct s op) :
    NamesInv (shmStep s op) ∧ CreateKept s op := by
  cases op with
  | create key sz mem => exact create_named hi h
  | obtain p id mem => exact ⟨(sameNames_obtain s p id mem).inv hi, trivial⟩
  | unmap key p => exact ⟨(sameNames_unmap s key p).inv hi, trivial⟩
  | exit p => exact ⟨(sameNames_unmapAll s p).inv hi, trivial⟩

theorem namesInv_boot : NamesInv bootShm where
  ids := List.nodup_nil
  known _ hk := absurd hk List.not_mem_nil

/-- In every run whose steps keep names apart, live segments have distinct ids that lead to them,
and each creation gives a segment with its key and its size. -/
theorem exec_shmNames (ops : List ShmOp) (h : Respects Distinct shmStep bootShm ops) :
    Named (run shmStep bootShm ops) ∧ Respects CreateKept shmStep bootShm ops := by
  constructor
  · have hinv := h.invariant (I := NamesInv) (fun _ _ hi ho => (hi.step ho).1) namesInv_boot
    exact hinv.named
  · exact h.imp (I := NamesInv) (fun _ _ hi ho => hi.step ho) namesInv_boot

/-- Two segments, one of which is attached, detached and made again with another size. -/
theorem exec_shmNames_again : Named (run shmStep bootShm [.create 5 4096 ⟨true, true, true, true⟩,
    .create 6 100 ⟨true, true, true, true⟩, .obtain 0 1 ⟨true, true⟩, .unmap 5 0,
    .create 5 8192 ⟨true, true, true, true⟩]) ∧
    Respects CreateKept shmStep bootShm [.create 5 4096 ⟨true, true, true, true⟩,
      .create 6 100 ⟨true, true, true, true⟩, .obtain 0 1 ⟨true, true⟩, .unmap 5 0,
      .create 5 8192 ⟨true, true, true, true⟩] := by
  apply exec_shmNames
  refine ⟨⟨by decide, fun _ => by decide⟩, ⟨by decide, fun _ => by decide +kernel⟩, ?_, trivial,
    ⟨by decide, fun _ => by decide +kernel⟩, trivial⟩
  intro _ k hk
  have h0 : (0 : ℕ) = k := Option.some.inj hk
  rw [← h0]
  decide +kernel

/-- A creation with the key of a smaller segment succeeds. -/
theorem not_exec_shmNames : ¬∀ ops : List ShmOp, Named (run shmStep bootShm ops) ∧
    Respects CreateKept shmStep bootShm ops := by
  intro h
  have hr := (h [.create 5 4096 ⟨true, true, true, true⟩,
    .create 5 8192 ⟨true, true, true, true⟩]).2
  obtain ⟨k, hk, -, -, hsz⟩ := hr.2.1 (by decide +kernel)
  have h0 : k = 0 := List.mem_singleton.mp hk
  rw [h0] at hsz
  revert hsz
  decide +kernel

end Xeneva.Mm.Shm
