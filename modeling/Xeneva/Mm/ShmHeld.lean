import Xeneva.Mm.ShmNames
import Xeneva.Mm.ShmRun

/-!
# Segments that a process holds

A process that has attached a segment holds it, at an address, until it detaches the segment or
exits. While keys and ids tell the segments apart, no call of another process changes this.
-/

namespace Xeneva.Mm.Shm
open Base

variable {s t : State} {k p key addr sz : ℕ} {op : ShmOp}

/-- The process has the segment attached at the address. -/
structure Holds (s : State) (p k key addr : ℕ) : Prop where
  listed : k ∈ s.shm_list
  key : (s.seg k).key = key
  mapped : ∃ maps, (s.proc p).shmmaps = some maps ∧ ∃ m ∈ maps, m.start_addr = addr ∧ m.shm = k

/-- The segments are in order, and their names tell them apart. -/
structure Kernel (s : State) : Prop where
  inv : ShmInv s
  names : NamesInv s
  keys : (s.shm_list.map fun k => (s.seg k).key).Nodup
  next_id : s.shm_id < 2 ^ 16
  ids : ∀ k ∈ s.shm_list, (s.seg k).id < 2 ^ 16

/-- A new segment gets an id that no segment has, and no link count or address wraps. -/
def OpOk (s : State) : ShmOp → Prop
  | .create key _ mem => auGetSHMSeg s key = none → mem.entry → ∀ k ∈ s.shm_list,
    (s.seg k).id ≠ s.shm_id
  | op => Fits s op

instance (s : State) : ∀ op, Decidable (OpOk s op)
  | .create key _ mem => inferInstanceAs (Decidable (auGetSHMSeg s key = none → mem.entry →
      ∀ k ∈ s.shm_list, (s.seg k).id ≠ s.shm_id))
  | .obtain p id mem => inferInstanceAs (Decidable (Fits s (.obtain p id mem)))
  | .unmap key p => inferInstanceAs (Decidable (Fits s (.unmap key p)))
  | .exit p => inferInstanceAs (Decidable (Fits s (.exit p)))

/-- The process that makes the call, where it matters which. -/
def ShmOp.caller : ShmOp → Option ℕ
  | .create .. => none
  | .obtain p _ _ => some p
  | .unmap _ p => some p
  | .exit p => some p

theorem Kernel.byKey (hk : Kernel s) (h : k ∈ s.shm_list) :
    auGetSHMSeg s (s.seg k).key = some k := by
  have hsome : (auGetSHMSeg s (s.seg k).key).isSome := by
    rw [auGetSHMSeg, List.find?_isSome]
    exact ⟨k, h, by simp⟩
  obtain ⟨j, hj⟩ := Option.isSome_iff_exists.mp hsome
  have hkey : (s.seg j).key = (s.seg k).key := by
    have hf := List.find?_some hj
    simpa using hf
  rw [hj, List.inj_on_of_nodup_map hk.keys (List.mem_of_find?_eq_some hj) h hkey]

theorem auGetSHMSeg_mem (h : auGetSHMSeg s key = some k) :
    k ∈ s.shm_list ∧ (s.seg k).key = key := by
  constructor
  · exact List.mem_of_find?_eq_some h
  · simpa using List.find?_some h

theorem auGetSHMSeg_none (h : auGetSHMSeg s key = none) : ∀ k ∈ s.shm_list, (s.seg k).key ≠ key := by
  intro k hk he
  have hn := List.find?_eq_none.mp h k hk
  simp [he] at hn

/-! ## Calls keep the names apart -/

theorem SameNames.kernel (h : SameNames s t) (hk : Kernel s) (ht : ShmInv t)
    (hid : t.shm_id = s.shm_id) : Kernel t where
  inv := ht
  names := h.inv hk.names
  keys := by
    have hkeys : (fun k => (t.seg k).key) = fun k => (s.seg k).key := funext h.key
    rw [hkeys]
    exact hk.keys.sublist (h.list.map _)
  next_id := by
    rw [hid]
    exact hk.next_id
  ids k hm := by
    rw [h.id]
    exact hk.ids k (h.list.subset hm)

theorem Kernel.create (hk : Kernel s) {mem : CreateMem} (ho : OpOk s (.create key sz mem)) :
    Kernel (auCreateSHM s key sz mem).1 := by
  have hinv := (create_inv hk.inv key sz mem).1
  rcases auCreateSHM_cases s key sz mem with ⟨k, hkey, he⟩ | ⟨id, he⟩ | ⟨hkey, hmem, -, he⟩
  · rw [he]
    exact hk
  · have hfail : (auCreateSHM s key sz mem).1.shm_id < 2 ^ 16 := by
      unfold auCreateSHM
      split
      · exact hk.next_id
      · dsimp only
        split_ifs
        · exact hk.next_id
        all_goals exact Nat.mod_lt _ (by decide)
    rw [he] at hinv hfail ⊢
    exact ⟨hinv, ⟨hk.names.ids, hk.names.known⟩, hk.keys, hfail, hk.ids⟩
  · rw [he] at hinv ⊢
    have hold : ∀ k ∈ s.shm_list,
        Function.update s.seg s.next ⟨key, s.shm_id, numFrames sz, 0⟩ k = s.seg k := fun k hm =>
      Function.update_of_ne (Nat.ne_of_lt (hk.names.known k hm)) _ _
    have hnext : (s.shm_id + 1) % 2 ^ 16 < 2 ^ 16 := Nat.mod_lt _ (by decide)
    by_cases hentry : mem.entry
    · simp only [if_pos hentry] at hinv ⊢
      refine ⟨hinv, hk.names.newSegment (ho hkey hentry) _, ?_, hnext, ?_⟩
      · simp only [List.map_append, List.map_cons, List.map_nil, Function.update_self]
        rw [List.map_congr_left fun k hm => congrArg AuSHM.key (hold k hm)]
        apply hk.keys.append (List.nodup_singleton _)
        intro i hi hn
        obtain ⟨k, hm, hi⟩ := List.mem_map.mp hi
        exact auGetSHMSeg_none hkey k hm (hi.trans (List.mem_singleton.mp hn))
      · intro k hm
        rcases List.mem_append.mp hm with hm | hm
        · dsimp only
          rw [hold k hm]
          exact hk.ids k hm
        · rw [List.mem_singleton.mp hm]
          dsimp only
          rw [Function.update_self]
          exact hk.next_id
    · simp only [if_neg hentry, List.append_nil] at hinv ⊢
      refine ⟨hinv, ⟨?_, ?_⟩, ?_, hnext, ?_⟩
      · dsimp only
        rw [List.map_congr_left fun k hm => congrArg AuSHM.id (hold k hm)]
        exact hk.names.ids
      · intro k hm
        exact Nat.lt_succ_of_lt (hk.names.known k hm)
      · dsimp only
        rw [List.map_congr_left fun k hm => congrArg AuSHM.key (hold k hm)]
        exact hk.keys
      · intro k hm
        dsimp only
        rw [hold k hm]
        exact hk.ids k hm

theorem auSHMRelease_id (s : State) (k : ℕ) : (auSHMRelease s k).shm_id = s.shm_id := by
  unfold auSHMRelease
  dsimp only
  split <;> rfl

theorem unmapLoop_id (p : ℕ) (maps : List AuSHMMappings) (s : State) :
    (unmapLoop p maps s).shm_id = s.shm_id := by
  induction maps generalizing s with
  | nil => rfl
  | cons m maps ih => exact (ih _).trans (auSHMRelease_id _ _)

theorem Kernel.step (hk : Kernel s) (ho : OpOk s op) : Kernel (shmStep s op) := by
  cases op with
  | create key sz mem => exact hk.create ho
  | obtain p id mem =>
    apply (sameNames_obtain s p id mem).kernel hk (obtain_inv hk.inv ho).1
    rcases auSHMObtainMem_cases s p id mem with he | ⟨maps, k, -, -, -, he⟩
    · rw [he]
    · rw [he]
      rfl
  | unmap key p =>
    apply (sameNames_unmap s key p).kernel hk (unmap_inv hk.inv key p).1
    unfold auSHMUnmap
    repeat' split
    all_goals first
      | rfl
      | exact auSHMRelease_id _ _
  | exit p =>
    apply (sameNames_unmapAll s p).kernel hk (unmapAll_inv hk.inv p).1
    unfold auSHMUnmapAll
    split
    · rfl
    · exact unmapLoop_id p _ s

/-! ## What a process holds stays -/

/-- A segment that is listed keeps its names and its size. -/
theorem shmStep_seg (op : ShmOp) (hk : Kernel s) (hm : k ∈ s.shm_list) :
    ((shmStep s op).seg k).key = (s.seg k).key ∧ ((shmStep s op).seg k).id = (s.seg k).id ∧
      ((shmStep s op).seg k).num_frames = (s.seg k).num_frames := by
  have hsame : ∀ t, SameNames s t → (t.seg k).key = (s.seg k).key ∧ (t.seg k).id = (s.seg k).id ∧
      (t.seg k).num_frames = (s.seg k).num_frames := fun t h => ⟨h.key k, h.id k, h.frames k⟩
  cases op with
  | create key sz mem =>
    unfold shmStep
    dsimp only
    rcases auCreateSHM_cases s key sz mem with ⟨j, -, he⟩ | ⟨id, he⟩ | ⟨-, -, -, he⟩
    · rw [he]
      exact ⟨rfl, rfl, rfl⟩
    · rw [he]
      exact ⟨rfl, rfl, rfl⟩
    · rw [he]
      dsimp only
      rw [Function.update_of_ne (Nat.ne_of_lt (hk.names.known k hm))]
      exact ⟨rfl, rfl, rfl⟩
  | obtain p id mem => exact hsame _ (sameNames_obtain s p id mem)
  | unmap key p => exact hsame _ (sameNames_unmap s key p)
  | exit p => exact hsame _ (sameNames_unmapAll s p)

theorem setProc_ne {q : ℕ} (hq : q ≠ p) (proc : AuProcess) : (setProc s p proc).proc q = s.proc q :=
  Function.update_of_ne hq _ _

theorem unmapLoop_proc_ne {q : ℕ} (hq : q ≠ p) (maps : List AuSHMMappings) (s : State) :
    (unmapLoop p maps s).proc q = s.proc q := by
  induction maps generalizing s with
  | nil => rfl
  | cons m maps ih =>
    unfold unmapLoop
    rw [ih, auSHMRelease_proc]
    exact setProc_ne hq _

/-- A call of another process leaves the mappings alone. -/
theorem shmStep_proc_ne (op : ShmOp) (hq : op.caller ≠ some p) :
    (shmStep s op).proc p = s.proc p := by
  cases op with
  | create key sz mem =>
    unfold shmStep
    dsimp only
    rcases auCreateSHM_cases s key sz mem with ⟨j, -, he⟩ | ⟨id, he⟩ | ⟨-, -, -, he⟩ <;> rw [he]
  | obtain q id mem =>
    have hpq : p ≠ q := fun he => hq (congrArg some he.symm)
    unfold shmStep
    dsimp only
    rcases auSHMObtainMem_cases s q id mem with he | ⟨maps, j, -, -, -, he⟩
    · rw [he]
    · rw [he]
      exact setProc_ne hpq _
  | unmap key q =>
    have hpq : p ≠ q := fun he => hq (congrArg some he.symm)
    unfold shmStep auSHMUnmap
    dsimp only
    repeat' split
    all_goals first
      | rfl
      | rw [auSHMRelease_proc]
        exact setProc_ne hpq _
  | exit q =>
    have hpq : p ≠ q := fun he => hq (congrArg some he.symm)
    unfold shmStep auSHMUnmapAll
    dsimp only
    split
    · rfl
    · exact (setProc_ne hpq _).trans (unmapLoop_proc_ne hpq _ s)

/-- A process does not exit by the calls of others. -/
theorem shmStep_alive (op : ShmOp) (h : (s.proc p).shmmaps.isSome) (hop : op ≠ .exit p) :
    ((shmStep s op).proc p).shmmaps.isSome := by
  by_cases hq : op.caller = some p
  · cases op with
    | create key sz mem => cases hq
    | obtain q id mem =>
      obtain rfl : q = p := Option.some.inj hq
      unfold shmStep
      dsimp only
      rcases auSHMObtainMem_cases s q id mem with he | ⟨maps, j, -, -, -, he⟩
      · rw [he]
        exact h
      · rw [he, setProc_self]
        rfl
    | unmap key q =>
      obtain rfl : q = p := Option.some.inj hq
      unfold shmStep auSHMUnmap
      dsimp only
      repeat' split
      all_goals first
        | exact h
        | rw [auSHMRelease_proc, setMaps, setProc_self]
          rfl
    | exit q =>
      obtain rfl : q = p := Option.some.inj hq
      exact absurd rfl hop
  · rw [shmStep_proc_ne op hq]
    exact h

/-- A mapping of a segment with another key stays where a process detaches one. -/
theorem unmap_keeps {maps : List AuSHMMappings} (hmaps : (s.proc p).shmmaps = some maps)
    {m : AuSHMMappings} (hm : m ∈ maps) (hne : (s.seg m.shm).key ≠ key) :
    ∃ maps', ((auSHMUnmap s key p).proc p).shmmaps = some maps' ∧ m ∈ maps' := by
  unfold auSHMUnmap
  rw [hmaps]
  dsimp only
  split
  · exact ⟨maps, hmaps, hm⟩
  next j hj =>
    split
    · exact ⟨maps, hmaps, hm⟩
    · have hjm : m.shm ≠ j := by
        rintro rfl
        exact hne (auGetSHMSeg_mem hj).2
      refine ⟨maps.eraseP fun m => decide (m.shm = j), ?_, ?_⟩
      · rw [auSHMRelease_proc, setMaps, setProc_self]
      · rwa [List.mem_eraseP_of_neg (by simpa using hjm)]

/-- An attachment only adds a mapping. -/
theorem obtain_keeps {maps : List AuSHMMappings} (hmaps : (s.proc p).shmmaps = some maps)
    {m : AuSHMMappings} (hm : m ∈ maps) (id : ℕ) (mem : ObtainMem) :
    ∃ maps', ((auSHMObtainMem s p id mem).1.proc p).shmmaps = some maps' ∧ m ∈ maps' := by
  rcases auSHMObtainMem_cases s p id mem with he | ⟨maps', j, hm', -, -, he⟩
  · rw [he]
    exact ⟨maps, hmaps, hm⟩
  · obtain rfl : maps' = maps := Option.some.inj (hm'.symm.trans hmaps)
    rw [he]
    refine ⟨_, by rw [setProc_self], ?_⟩
    apply (exchangeSort_perm _).mem_iff.mpr
    exact List.mem_append_left _ hm

/-- What a process holds it keeps, unless it exits or detaches the segment. -/
theorem Kernel.holds (hk : Kernel s) (ho : OpOk s op) (h : Holds s p k key addr)
    (hexit : op ≠ .exit p) (hunmap : op ≠ .unmap key p) : Holds (shmStep s op) p k key addr := by
  obtain ⟨maps, hmaps, m, hm, haddr, hshm⟩ := h.mapped
  have hkeep : ∃ maps', ((shmStep s op).proc p).shmmaps = some maps' ∧ m ∈ maps' := by
    by_cases hq : op.caller = some p
    · cases op with
      | create key sz mem => cases hq
      | obtain q id mem =>
        obtain rfl : q = p := Option.some.inj hq
        exact obtain_keeps hmaps hm id mem
      | unmap key' q =>
        obtain rfl : q = p := Option.some.inj hq
        apply unmap_keeps hmaps hm
        rw [hshm, h.key]
        rintro rfl
        exact hunmap rfl
      | exit q =>
        obtain rfl : q = p := Option.some.inj hq
        exact absurd rfl hexit
    · rw [shmStep_proc_ne op hq]
      exact ⟨maps, hmaps, hm⟩
  obtain ⟨maps', hmaps', hm'⟩ := hkeep
  have hlive := ((hk.step ho).inv.live k (by
    rw [← hshm]
    exact attached_mem hmaps' hm')).1
  refine ⟨hlive, ?_, maps', hmaps', m, hm', haddr, hshm⟩
  rw [(shmStep_seg op hk h.listed).1]
  exact h.key

/-! ## Attaching by a key -/

/-- A segment is created, or found by its key, and attached; the id is passed on as 16 bits. -/
def attachKey (s : State) (p key sz : ℕ) (cmem : CreateMem) (omem : ObtainMem) : State × ℕ :=
  let (s, id) := auCreateSHM s key sz cmem
  auSHMObtainMem s p (id % 2 ^ 16).toNat omem

/-- A new segment gets an id of its own, no segment has the id that stands for a failure, and
nothing wraps. -/
structure AttachOk (s : State) (p key sz : ℕ) (cmem : CreateMem) (omem : ObtainMem) : Prop where
  id : auGetSHMSeg s key = none → ∀ k ∈ s.shm_list, (s.seg k).id ≠ s.shm_id
  lost : (auCreateSHM s key sz cmem).2 = -1 → auGetSHMByID s (2 ^ 16 - 1) = none
  fits : Fits (auCreateSHM s key sz cmem).1
    (.obtain p ((auCreateSHM s key sz cmem).2 % 2 ^ 16).toNat omem)

/-- The allocations succeed. -/
structure Made (sz : ℕ) (cmem : CreateMem) (omem : ObtainMem) : Prop where
  create : cmem.shm ∧ cmem.frames ∧ cmem.pages ∧ cmem.entry
  size : 0 < numFrames sz ∧ 8 * numFrames sz < 2 ^ 32
  mapping : omem.mapping

instance (s : State) (p key sz : ℕ) (cmem : CreateMem) (omem : ObtainMem) :
    Decidable (AttachOk s p key sz cmem omem) :=
  decidable_of_iff ((auGetSHMSeg s key = none → ∀ k ∈ s.shm_list, (s.seg k).id ≠ s.shm_id) ∧
    ((auCreateSHM s key sz cmem).2 = -1 → auGetSHMByID s (2 ^ 16 - 1) = none) ∧
    Fits (auCreateSHM s key sz cmem).1
      (.obtain p ((auCreateSHM s key sz cmem).2 % 2 ^ 16).toNat omem))
    ⟨fun h => ⟨h.1, h.2.1, h.2.2⟩, fun h => ⟨h.id, h.lost, h.fits⟩⟩

instance (sz : ℕ) (cmem : CreateMem) (omem : ObtainMem) : Decidable (Made sz cmem omem) :=
  decidable_of_iff ((cmem.shm ∧ cmem.frames ∧ cmem.pages ∧ cmem.entry) ∧
    (0 < numFrames sz ∧ 8 * numFrames sz < 2 ^ 32) ∧ omem.mapping)
    ⟨fun h => ⟨h.1, h.2.1, h.2.2⟩, fun h => ⟨h.create, h.size, h.mapping⟩⟩

section Attach
variable {cmem : CreateMem} {omem : ObtainMem}

theorem AttachOk.create (ha : AttachOk s p key sz cmem omem) : OpOk s (.create key sz cmem) :=
  fun hn _ => ha.id hn

theorem AttachOk.obtain (ha : AttachOk s p key sz cmem omem) :
    OpOk (shmStep s (.create key sz cmem))
      (.obtain p ((auCreateSHM s key sz cmem).2 % 2 ^ 16).toNat omem) := ha.fits

theorem attachKey_alive (p key sz : ℕ) (cmem : CreateMem) (omem : ObtainMem) {q : ℕ}
    (h : (s.proc q).shmmaps.isSome) :
    ((attachKey s p key sz cmem omem).1.proc q).shmmaps.isSome := by
  have h₁ := shmStep_alive (.create key sz cmem) h (by simp)
  exact shmStep_alive (.obtain p _ omem) h₁ (by simp)

/-- A creation that gets its memory does not fail. -/
theorem auCreateSHM_made (s : State) (key : ℕ) (hm : Made sz cmem omem) :
    0 ≤ (auCreateSHM s key sz cmem).2 := by
  obtain ⟨h1, h2, h3, -⟩ := hm.create
  have hsize : 8 * numFrames sz % 4294967296 ≠ 0 := by
    obtain ⟨hpos, hlt⟩ := hm.size
    omega
  cases hkey : auGetSHMSeg s key with
  | some j => simp [auCreateSHM, hkey]
  | none => simp [auCreateSHM, hkey, h1, h2, h3, hsize]

/-- The segment that an attachment by a key finds has the key; a new one has the size. -/
theorem Kernel.created (hk : Kernel s) (ha : AttachOk s p key sz cmem omem)
    (hf : auGetSHMByID (auCreateSHM s key sz cmem).1
      ((auCreateSHM s key sz cmem).2 % 2 ^ 16).toNat = some k) :
    k ∈ (auCreateSHM s key sz cmem).1.shm_list ∧ ((auCreateSHM s key sz cmem).1.seg k).key = key ∧
      (auGetSHMSeg s key = none →
        ((auCreateSHM s key sz cmem).1.seg k).num_frames = numFrames sz) := by
  have hk' := hk.create ha.create
  have hlost := ha.lost
  have hid : ∀ n : ℕ, n < 2 ^ 16 → ((n : ℤ) % 2 ^ 16).toNat = n := by
    intro n hn
    omega
  -- the id is that of one segment
  have hone : ∀ j, j ∈ (auCreateSHM s key sz cmem).1.shm_list →
      (auCreateSHM s key sz cmem).2 = (((auCreateSHM s key sz cmem).1.seg j).id : ℤ) → k = j := by
    intro j hj he
    rw [he, hid _ (hk'.ids j hj), hk'.names.named.found j hj] at hf
    exact (Option.some.inj hf).symm
  rcases auCreateSHM_cases s key sz cmem with ⟨j, hkey, he⟩ | ⟨id, he⟩ | ⟨hkey, hmem, -, he⟩
  · rw [he] at hone ⊢
    obtain ⟨hj, hjkey⟩ := auGetSHMSeg_mem hkey
    obtain rfl := hone j hj rfl
    exact ⟨hj, hjkey, fun hn => absurd (hkey.symm.trans hn) (by simp)⟩
  · rw [he] at hf hlost
    have hnone := hlost rfl
    have hsame : auGetSHMByID { s with shm_id := id } (2 ^ 16 - 1) = none := hnone
    have hlast : ((-1 : ℤ) % 2 ^ 16).toNat = 2 ^ 16 - 1 := by decide
    rw [hlast] at hf
    exact absurd (hf.symm.trans hsame) (by simp)
  · by_cases hentry : cmem.entry
    · simp only [he, if_pos hentry, List.mem_append, List.mem_singleton] at hone ⊢
      obtain rfl := hone s.next (.inr rfl) (by rw [Function.update_self])
      rw [Function.update_self]
      exact ⟨.inr rfl, rfl, fun _ => rfl⟩
    · -- a segment that is not listed is not found
      simp only [he, if_neg hentry, List.append_nil] at hf
      rw [hid _ hk.next_id] at hf
      obtain ⟨hm, hkid⟩ := auGetSHMByID_mem hf
      dsimp only at hm hkid
      rw [Function.update_of_ne (Nat.ne_of_lt (hk.names.known k hm))] at hkid
      exact absurd hkid (ha.id hkey k hm)

/-- An attachment by a key keeps the names apart, and gives a segment with this key or none. -/
theorem Kernel.attach (hk : Kernel s) (ha : AttachOk s p key sz cmem omem) :
    Kernel (attachKey s p key sz cmem omem).1 ∧
      ((attachKey s p key sz cmem omem).2 ≠ 0 → ∃ k,
        Holds (attachKey s p key sz cmem omem).1 p k key (attachKey s p key sz cmem omem).2 ∧
        (auGetSHMSeg s key = none →
          ((attachKey s p key sz cmem omem).1.seg k).num_frames = numFrames sz)) := by
  have hk₁ := hk.step ha.create
  have hk₂ := hk₁.step ha.obtain
  refine ⟨hk₂, ?_⟩
  intro hne
  unfold attachKey at hne ⊢
  dsimp only at hne ⊢
  have hcreated := fun k => hk.created (k := k) ha
  have hfits := ha.fits
  generalize auCreateSHM s key sz cmem = r at hne hcreated hfits ⊢
  rcases auSHMObtainMem_cases r.1 p (r.2 % 2 ^ 16).toNat omem with he | ⟨maps, k, hm, hf, hmap, he⟩
  · rw [he] at hne
    exact absurd rfl hne
  · obtain ⟨hlist, hkey, hframes⟩ := hcreated k hf
    obtain ⟨hentry, -, -⟩ := hfits hmap k hf
    rw [he]
    have hseg : ∀ f : AuSHM → ℕ, (∀ shm n, f { shm with link_count := n } = f shm) →
        f ((auSHMRetain r.1 k).seg k) = f (r.1.seg k) := by
      intro f hf
      unfold auSHMRetain
      dsimp only
      rw [Function.update_self]
      exact hf _ _
    refine ⟨k, ⟨hlist, ?_, _, by rw [setProc_self], ?_⟩, ?_⟩
    · exact (hseg AuSHM.key fun _ _ => rfl).trans hkey
    · refine ⟨⟨_, (r.1.seg k).num_frames * PAGE_SIZE % 2 ^ 64, k⟩, ?_, rfl, rfl⟩
      apply (exchangeSort_perm _).mem_iff.mpr
      rw [if_pos hentry]
      exact List.mem_append_right _ (List.mem_singleton_self _)
    · intro hn
      exact (hseg AuSHM.num_frames fun _ _ => rfl).trans (hframes hn)

/-- What was held before is held after it. -/
theorem Kernel.attach_holds (hk : Kernel s) (ha : AttachOk s p key sz cmem omem) {k' key' addr' : ℕ}
    (h : Holds s p k' key' addr') : Holds (attachKey s p key sz cmem omem).1 p k' key' addr' ∧
      ((attachKey s p key sz cmem omem).1.seg k').num_frames = (s.seg k').num_frames := by
  have hk₁ := hk.step ha.create
  have h₁ := hk.holds ha.create h (by simp) (by simp)
  have h₂ := hk₁.holds ha.obtain h₁ (by simp) (by simp)
  refine ⟨h₂, ?_⟩
  exact (shmStep_seg (.obtain _ _ _) hk₁ h₁.listed).2.2.trans
    (shmStep_seg (.create _ _ _) hk h.listed).2.2

/-- What is attached has an address in the area of shared memory. -/
theorem Kernel.attach_ne_zero (hk : Kernel s) (ha : AttachOk s p key sz cmem omem)
    (hm : Made sz cmem omem) (hp : (s.proc p).shmmaps.isSome) :
    (attachKey s p key sz cmem omem).2 ≠ 0 := by
  obtain ⟨maps, hmaps⟩ := Option.isSome_iff_exists.mp hp
  have hk₁ := hk.create ha.create
  have hproc := shmStep_proc_ne (s := s) (p := p) (.create key sz cmem) (by simp [ShmOp.caller])
  have hfits := ha.fits hm.mapping
  have hsome : ∃ k ∈ (auCreateSHM s key sz cmem).1.shm_list,
      (auCreateSHM s key sz cmem).2 = (((auCreateSHM s key sz cmem).1.seg k).id : ℤ) := by
    obtain ⟨h1, h2, h3, h4⟩ := hm.create
    cases hkey : auGetSHMSeg s key with
    | some j =>
      refine ⟨j, ?_, ?_⟩ <;> simp only [auCreateSHM, hkey]
      exact (auGetSHMSeg_mem hkey).1
    | none =>
      have hsize : 8 * numFrames sz % 4294967296 ≠ 0 := by
        obtain ⟨hpos, hlt⟩ := hm.size
        omega
      refine ⟨s.next, ?_, ?_⟩ <;> simp [auCreateSHM, hkey, h1, h2, h3, h4, hsize]
  obtain ⟨k, hlist, hid⟩ := hsome
  have hfound : auGetSHMByID (auCreateSHM s key sz cmem).1
      ((auCreateSHM s key sz cmem).2 % 2 ^ 16).toNat = some k := by
    have hlt := hk₁.ids k hlist
    have hmod : ((((auCreateSHM s key sz cmem).1.seg k).id : ℤ) % 2 ^ 16).toNat =
        ((auCreateSHM s key sz cmem).1.seg k).id := by omega
    rw [hid, hmod]
    exact hk₁.names.named.found k hlist
  obtain ⟨-, -, hbreak⟩ := hfits k hfound
  have hmaps₁ : ((auCreateSHM s key sz cmem).1.proc p).shmmaps = some maps :=
    (congrArg AuProcess.shmmaps hproc).trans hmaps
  have hlen : ((auCreateSHM s key sz cmem).1.seg k).num_frames * PAGE_SIZE % 2 ^ 64 =
      ((auCreateSHM s key sz cmem).1.seg k).num_frames * PAGE_SIZE := Nat.mod_eq_of_lt (by omega)
  have hspec := auSHMFindAddress_spec (hk₁.inv.laid p maps hmaps₁) (hk₁.inv.start p) hbreak
  unfold attachKey auSHMObtainMem
  dsimp only
  rw [hmaps₁]
  dsimp only
  rw [hfound]
  dsimp only
  rw [if_neg (by simp [hm.mapping]), hlen]
  have hlo := hspec.1
  have hpos : 0 < USER_SHARED_MEM_START := by decide
  dsimp only at hlo ⊢
  omega

end Attach

end Xeneva.Mm.Shm
