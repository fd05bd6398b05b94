import Xeneva.Mm.PmmInit
import Xeneva.Mm.VmmSpace

/-!
# The teardown of an address space

The recursive walk over the private tables asks the frame manager to take back every table and
every private page. It is one pass over the paths of the user half, each after the longer ones.
-/

namespace Xeneva.Vmm
open Base Base.Radix

def PTE_DEVICE_MEM : BitVec 64 := 0x0
def PTE_ATTR_MASK : BitVec 64 := 0x1C

/-- The frame manager and the frames it was asked to take back. -/
structure Teardown where
  pmm : Pmm.Machine
  released : List (BitVec 64) := []

/-- `AuPmmngrReleasePage`. -/
def Teardown.release (s : Teardown) (phys : BitVec 64) : Teardown :=
  ⟨Pmm.step s.pmm (.releasePage (UInt64.ofBitVec phys)), s.released ++ [phys]⟩

def backingBlock (pmm : Pmm.Machine) (phys : BitVec 64) : ℤ :=
  Pmm.auPmmngrGetBackingBlock pmm.pmm (UInt64.ofBitVec phys)

/-- A page that the teardown gives back: neither device memory nor in the file cache. -/
def isPrivate (pmm : Pmm.Machine) (desc : BitVec 64) : Bool :=
  desc &&& PTE_ATTR_MASK ≠ PTE_DEVICE_MEM ∧ backingBlock pmm (desc &&& VMM_PHYS_MASK) = -1

def indices : List (BitVec 9) := (List.finRange 512).map BitVec.ofFin

/-- The entries of a table at level 3. Entries that are not valid and blocks are passed over. -/
def vmmDestroyPage (s : Teardown) (desc : BitVec 64) : Teardown :=
  match next desc with
  | none => s
  | some child => if isPrivate s.pmm desc then s.release child else s

/-- `vmm_destroy_table` at the level that has `n` levels of tables below it. -/
def vmmDestroyTable (mem : Mem) : ℕ → BitVec 64 → Teardown → Teardown
  | 0, phys, s => (indices.foldl (fun s i => vmmDestroyPage s (mem phys i)) s).release phys
  | n + 1, phys, s => (indices.foldl (fun s i => match next (mem phys i) with
      | none => s
      | some child => vmmDestroyTable mem n child s) s).release phys

def auIsVirtualAddressSpaceActive (ttbr0 root : BitVec 64) : Bool := ttbr0 &&& VMM_PHYS_MASK = root

/-- The memory, the frame manager and whether the address space is gone. -/
def auDestroyVirtualAddressSpace (mem : Mem) (pmm : Pmm.Machine) (ttbr0 : BitVec 64) :
    Option (BitVec 64) → Mem × Teardown × Bool
  | none => (mem, ⟨pmm, []⟩, false)
  | some root =>
    if auIsVirtualAddressSpaceActive ttbr0 root then (mem, ⟨pmm, []⟩, false)
    else
      let private_entries := fun i => mem root i
      let mem : Mem := fun t i => if t = root ∧ i.toNat < 256 then 0 else mem t i
      let s := (indices.filter (·.toNat < 256)).foldl (fun s i => match next (private_entries i) with
        | none => s
        | some child => vmmDestroyTable mem 2 child s) ⟨pmm, []⟩
      (mem, s.release root, true)

variable {L : Pmm.Layout} {ram : BitVec 64 → Prop} {mem mem' : Mem} {priv : List (BitVec 64)}
  {root t virt desc f g : BitVec 64} {p q : List (BitVec 9)} {i : BitVec 9} {s s' : Teardown}
  {l : List (List (BitVec 9))}

/-! ## The walk as one pass -/

theorem mem_indices (i : BitVec 9) : i ∈ indices :=
  List.mem_map.mpr ⟨i.toFin, List.mem_finRange _, rfl⟩

theorem nodup_indices : indices.Nodup :=
  (List.nodup_finRange 512).map fun _ _ h => congrArg BitVec.toFin h

/-- The descriptor at the end of a path. -/
def entryAt (mem : Mem) (root : BitVec 64) (p : List (BitVec 9)) : BitVec 64 :=
  (trail next mem root p).getLastD 0

/-- The frame at the end of a path is given back: a table, or a private page. -/
def wanted (mem : Mem) (root : BitVec 64) (p : List (BitVec 9)) (pmm : Pmm.Machine) : Bool :=
  p.length < 4 ∨ isPrivate pmm (entryAt mem root p)

/-- What the teardown does at the end of a path. -/
def visit (mem : Mem) (root : BitVec 64) (s : Teardown) (p : List (BitVec 9)) : Teardown :=
  match walk next mem root p with
  | none => s
  | some f => if wanted mem root p s.pmm then s.release f else s

theorem entryAt_concat (hw : walk next mem root q = some t) :
    entryAt mem root (q ++ [i]) = mem t i := by
  unfold entryAt
  rw [trail_append hw]
  have ht : trail next mem t [i] = [mem t i] := by
    simp only [trail]
    split <;> rfl
  rw [ht, List.getLastD_concat]

theorem visit_page (hw : walk next mem root q = some t) (hq : q.length = 3) :
    visit mem root s (q ++ [i]) = vmmDestroyPage s (mem t i) := by
  unfold visit vmmDestroyPage wanted
  rw [walk_concat, hw, Option.bind_some, entryAt_concat hw]
  cases next (mem t i) with
  | none => rfl
  | some child => simp [hq]

theorem visit_table (hw : walk next mem root q = some t) (hq : q.length ≤ 3) :
    visit mem root s q = s.release t := by
  unfold visit wanted
  rw [hw]
  dsimp only
  rw [if_pos]
  simp only [decide_eq_true_eq]
  exact Or.inl (by omega)

/-- Below a table the walk visits the paths in order. -/
theorem vmmDestroyTable_eq {n : ℕ} (hw : walk next mem root q = some t) (hq : q.length + n = 3) :
    vmmDestroyTable mem n t s =
      ((postorder next indices mem (n + 1) t).map (q ++ ·)).foldl (visit mem root) s := by
  induction n generalizing q t s with
  | zero =>
    unfold vmmDestroyTable postorder
    rw [List.map_append, List.foldl_append, List.map_flatMap, List.foldl_flatMap]
    have hend : ∀ s, List.foldl (visit mem root) s (List.map (q ++ ·) [[]]) = s.release t := by
      intro s
      simp only [List.map_cons, List.map_nil, List.append_nil, List.foldl_cons, List.foldl_nil]
      exact visit_table hw (by omega)
    rw [hend]
    apply congrArg (Teardown.release · t)
    apply List.foldl_ext
    intro s i _
    rw [← visit_page hw (by omega)]
    cases hn : next (mem t i) with
    | none =>
      unfold visit
      rw [walk_concat, hw, Option.bind_some, hn]
      rfl
    | some child => simp [postorder]
  | succ n ih =>
    unfold vmmDestroyTable postorder
    rw [List.map_append, List.foldl_append, List.map_flatMap, List.foldl_flatMap]
    have hend : ∀ s, List.foldl (visit mem root) s (List.map (q ++ ·) [[]]) = s.release t := by
      intro s
      simp only [List.map_cons, List.map_nil, List.append_nil, List.foldl_cons, List.foldl_nil]
      exact visit_table hw (by omega)
    rw [hend]
    apply congrArg (Teardown.release · t)
    apply List.foldl_ext
    intro s i _
    cases hn : next (mem t i) with
    | none => rfl
    | some child =>
      have hw' : walk next mem root (q ++ [i]) = some child := by
        rw [walk_concat, hw]
        exact hn
      dsimp only
      rw [ih hw' (by simp; omega), List.map_map]
      apply congrArg (List.foldl (visit mem root) s)
      apply List.map_congr_left
      intro p _
      simp

theorem vmmDestroyTable_congr {n : ℕ}
    (h : ∀ p u, p.length ≤ n → walk next mem t p = some u → ∀ i, mem' u i = mem u i) :
    vmmDestroyTable mem' n t s = vmmDestroyTable mem n t s := by
  induction n generalizing t s with
  | zero =>
    unfold vmmDestroyTable
    apply congrArg (Teardown.release · t)
    apply List.foldl_ext
    intro s i _
    rw [h [] t (by simp) rfl]
  | succ n ih =>
    unfold vmmDestroyTable
    apply congrArg (Teardown.release · t)
    apply List.foldl_ext
    intro s i _
    rw [h [] t (by simp) rfl]
    cases hn : next (mem t i) with
    | none => rfl
    | some child =>
      apply ih
      intro p u hp hw
      apply h (i :: p) u (by simpa using hp)
      rw [walk_cons, hn]
      exact hw

/-- The whole teardown is one pass over the paths of the user half. -/
theorem auDestroyVirtualAddressSpace_eq (h : SpaceInv ram root mem priv) (pmm : Pmm.Machine)
    {ttbr0 : BitVec 64} (ha : ttbr0 &&& VMM_PHYS_MASK ≠ root) :
    (auDestroyVirtualAddressSpace mem pmm ttbr0 (some root)).2.1 =
      (postorder next indices (userHalf root mem) 4 root).foldl (visit (userHalf root mem) root)
        ⟨pmm, []⟩ := by
  have hactive : auIsVirtualAddressSpaceActive ttbr0 root = false := decide_eq_false ha
  unfold auDestroyVirtualAddressSpace postorder
  dsimp only
  rw [hactive, if_neg Bool.false_ne_true]
  dsimp only
  rw [List.foldl_append, List.foldl_flatMap, List.foldl_filter, List.foldl_cons, List.foldl_nil,
    visit_table rfl (by simp)]
  apply congrArg (Teardown.release · root)
  apply List.foldl_ext
  intro s i _
  by_cases hi : i.toNat < 256
  · have hu : userHalf root mem root i = mem root i := userHalf_apply fun _ => hi
    rw [if_pos (by simpa using hi), hu]
    cases hn : next (mem root i) with
    | none => rfl
    | some child =>
      have hw : walk next (userHalf root mem) root [i] = some child := by
        rw [walk_cons, hu, hn]
        rfl
      have heq := vmmDestroyTable_eq (n := 2) (s := s) hw rfl
      simp only [List.singleton_append] at heq
      dsimp only
      rw [← heq]
      apply vmmDestroyTable_congr
      intro p u hp hwu j
      -- below the root no table is the root, so the cleared entries are not met again
      have hw' : walk next (userHalf root mem) root (i :: p) = some u := by
        rw [walk_cons, hu, hn]
        exact hwu
      have hne : u ≠ root := by
        intro hur
        rw [hur] at hw'
        exact absurd (h.forest root (by simp) root (by simp) (i :: p) [] root
          (by rw [List.length_cons]; omega) (by simp) hw' rfl) (List.cons_ne_nil i p)
      rw [if_neg fun hc => hne hc.1, userHalf_apply fun hc => absurd hc hne]
  · have hz : userHalf root mem root i = 0 := if_pos ⟨rfl, by omega⟩
    rw [if_neg (by simpa using hi), hz, next_zero]
    rfl

/-! ## What one pass gives back -/

/-- The frame manager is in order. -/
def Kept (L : Pmm.Layout) (s : Teardown) : Prop := ∃ m A, Pmm.HeldInv L m A s.pmm

/-- Nothing happened to the frame. -/
structure Quiet (L : Pmm.Layout) (f : BitVec 64) (s s' : Teardown) : Prop where
  kept : Kept L s'
  count : s'.released.count f = s.released.count f
  backing : backingBlock s'.pmm f = backingBlock s.pmm f

theorem Quiet.refl (h : Kept L s) : Quiet L f s s := ⟨h, rfl, rfl⟩

theorem Quiet.trans {s'' : Teardown} (h : Quiet L f s s') (h' : Quiet L f s' s'') :
    Quiet L f s s'' :=
  ⟨h'.kept, h'.count.trans h.count, h'.backing.trans h.backing⟩

theorem mod_of_aligned (h : f &&& VMM_PHYS_MASK = f) : f.toNat % 4096 = 0 := by
  have h0 : f &&& PAGE_MASK = 0 := and_of_and h (by decide)
  have h1 := congrArg BitVec.toNat h0
  rw [BitVec.toNat_and] at h1
  have h2 := Nat.and_two_pow_sub_one_eq_mod f.toNat 12
  exact h2.symm.trans h1

theorem page_ne (hf : f &&& VMM_PHYS_MASK = f) (hg : g &&& VMM_PHYS_MASK = g) (hne : f ≠ g) :
    f.toNat / 4096 ≠ g.toNat / 4096 := by
  intro h
  have hf := mod_of_aligned hf
  have hg := mod_of_aligned hg
  exact hne (BitVec.eq_of_toNat_eq (by omega))

theorem Kept.release (h : Kept L s) (f : BitVec 64) : Kept L (s.release f) := by
  obtain ⟨m, A, hi⟩ := h
  obtain ⟨m', A', hi', -⟩ := hi.step (.releasePage (UInt64.ofBitVec f))
  exact ⟨m', A', hi'⟩

theorem count_release (s : Teardown) (f g : BitVec 64) :
    (s.release g).released.count f = s.released.count f + if g = f then 1 else 0 := by
  unfold Teardown.release
  rw [List.count_append, List.count_singleton]
  simp

theorem release_quiet (h : Kept L s) (hf : f &&& VMM_PHYS_MASK = f) (hg : g &&& VMM_PHYS_MASK = g)
    (hne : g ≠ f) : Quiet L f s (s.release g) := by
  refine ⟨h.release g, ?_, ?_⟩
  · rw [count_release, if_neg hne, Nat.add_zero]
  · obtain ⟨m, A, hi⟩ := h
    exact hi.backing_releasePage (page_ne hf hg hne.symm)

section Pass

variable (hal : ∀ p f, walk next mem root p = some f → f &&& VMM_PHYS_MASK = f)

theorem entryAt_frame (hw : walk next mem root p = some f) (hp : p ≠ []) :
    entryAt mem root p &&& VMM_PHYS_MASK = f := by
  obtain ⟨q, i, rfl⟩ : ∃ q i, p = q ++ [i] :=
    ⟨p.dropLast, p.getLast hp, (List.dropLast_concat_getLast hp).symm⟩
  rw [walk_concat] at hw
  obtain ⟨t, ht, hn⟩ := Option.bind_eq_some_iff.mp hw
  rw [entryAt_concat ht]
  have hne : next (mem t i) ≠ none := by simp [hn]
  rw [next_eq_some hne] at hn
  exact Option.some.inj hn

theorem wanted_congr (hw : walk next mem root p = some f)
    (hb : backingBlock s'.pmm f = backingBlock s.pmm f) :
    wanted mem root p s'.pmm = wanted mem root p s.pmm := by
  unfold wanted
  by_cases hp : p.length < 4
  · simp [hp]
  · unfold isPrivate
    rw [entryAt_frame hw (List.ne_nil_of_length_pos (by omega)), hb]

theorem visit_eq (hw : walk next mem root p = some f) :
    visit mem root s p = if wanted mem root p s.pmm then s.release f else s := by
  unfold visit
  rw [hw]

theorem visit_kept (h : Kept L s) : Kept L (visit mem root s p) := by
  unfold visit
  split
  · exact h
  · split
    · exact h.release _
    · exact h

theorem pass_mono (h : Kept L s) (f : BitVec 64) :
    s.released.count f ≤ (l.foldl (visit mem root) s).released.count f := by
  induction l generalizing s with
  | nil => exact le_rfl
  | cons p l ih =>
    apply Nat.le_trans _ (ih (visit_kept h))
    unfold visit
    split
    · exact le_rfl
    · split
      · rw [count_release]
        exact Nat.le_add_right _ _
      · exact le_rfl

include hal

/-- A visit elsewhere, or one that leaves the frame, does nothing to the frame. -/
theorem visit_quiet (h : Kept L s) (hf : f &&& VMM_PHYS_MASK = f)
    (hn : walk next mem root p = some f → wanted mem root p s.pmm = false) :
    Quiet L f s (visit mem root s p) := by
  cases hw : walk next mem root p with
  | none =>
    unfold visit
    rw [hw]
    exact .refl h
  | some g =>
    rw [visit_eq hw]
    split
    · next hwant =>
      apply release_quiet h hf (hal p g hw)
      intro hgf
      rw [hgf] at hw
      rw [hn hw] at hwant
      exact absurd hwant Bool.false_ne_true
    · exact .refl h

/-- A frame that no visit wants is left alone. -/
theorem pass_quiet (h : Kept L s) (hf : f &&& VMM_PHYS_MASK = f)
    (hn : ∀ p ∈ l, walk next mem root p = some f → wanted mem root p s.pmm = false) :
    Quiet L f s (l.foldl (visit mem root) s) := by
  induction l generalizing s with
  | nil => exact .refl h
  | cons p l ih =>
    have hq := visit_quiet hal h hf (hn p (by simp))
    apply hq.trans
    apply ih hq.kept
    intro q hq' hw
    rw [wanted_congr hw hq.backing]
    exact hn q (by simp [hq']) hw

/-- A frame that some visit wants is given back. -/
theorem pass_wanted (h : Kept L s) (hf : f &&& VMM_PHYS_MASK = f) (hp : p ∈ l)
    (hw : walk next mem root p = some f) (hwant : wanted mem root p s.pmm = true) :
    s.released.count f < (l.foldl (visit mem root) s).released.count f := by
  induction l generalizing s with
  | nil => exact absurd hp List.not_mem_nil
  | cons q l ih =>
    by_cases hq : walk next mem root q = some f ∧ wanted mem root q s.pmm = true
    · apply Nat.lt_of_lt_of_le _ (pass_mono (visit_kept h) f)
      rw [visit_eq hq.1, if_pos hq.2, count_release, if_pos rfl]
      exact Nat.lt_succ_self _
    · have hquiet := visit_quiet hal h hf fun hwq => Bool.eq_false_iff.mpr fun hc => hq ⟨hwq, hc⟩
      have hp' : p ∈ l := by
        apply (List.mem_cons.mp hp).resolve_left
        intro he
        exact hq (he ▸ ⟨hw, hwant⟩)
      have hlt := ih hquiet.kept hp' ((wanted_congr hw hquiet.backing).trans hwant)
      rw [hquiet.count] at hlt
      exact hlt

/-- A frame at the end of one path only is given back once if that is wanted. -/
theorem pass_once (h : Kept L s) (hf : f &&& VMM_PHYS_MASK = f) (hp : p ∈ l) (hnd : l.Nodup)
    (hw : walk next mem root p = some f)
    (hu : ∀ q ∈ l, walk next mem root q = some f → q = p) :
    (l.foldl (visit mem root) s).released.count f =
      s.released.count f + if wanted mem root p s.pmm then 1 else 0 := by
  obtain ⟨a, b, rfl⟩ := List.append_of_mem hp
  have hl : ∀ q ∈ a, walk next mem root q ≠ some f := by
    intro q hq hwq
    have he := hu q (by simp [hq]) hwq
    exact (List.nodup_append.mp hnd).2.2 q hq p (by simp) he
  have hr : ∀ q ∈ b, walk next mem root q ≠ some f := by
    intro q hq hwq
    have he := hu q (by simp [hq]) hwq
    rw [he] at hq
    exact (List.nodup_cons.mp (List.nodup_append.mp hnd).2.1).1 hq
  have h₁ := pass_quiet hal h hf fun q hq hwq => absurd hwq (hl q hq)
  rw [List.foldl_append, List.foldl_cons]
  have hk : Kept L (visit mem root (a.foldl (visit mem root) s) p) := visit_kept h₁.kept
  have h₂ := pass_quiet hal hk hf fun q hq hwq => absurd hwq (hr q hq)
  rw [h₂.count, visit_eq hw, wanted_congr hw h₁.backing]
  split
  · rw [count_release, if_pos rfl, h₁.count]
  · rw [h₁.count, Nat.add_zero]

end Pass

/-! ## Pages and paths -/

/-- The lowest address with the given indices. -/
def addressOf (a b c d : BitVec 9) : BitVec 64 :=
  BitVec.ofNat 64 (a.toNat * 2 ^ 39 + b.toNat * 2 ^ 30 + c.toNat * 2 ^ 21 + d.toNat * 2 ^ 12)

theorem index_eq {k : ℕ} {a : BitVec 9} (h : virt.toNat / 2 ^ k % 512 = a.toNat) :
    (virt >>> k).setWidth 9 = a := by
  apply BitVec.eq_of_toNat_eq
  rw [BitVec.toNat_setWidth, BitVec.toNat_ushiftRight, Nat.shiftRight_eq_div_pow]
  exact h

theorem pagePath_addressOf (a b c d : BitVec 9) : pagePath (addressOf a b c d) = [a, b, c, d] := by
  have ha := a.isLt
  have hb := b.isLt
  have hc := c.isLt
  have hd := d.isLt
  have hn : (addressOf a b c d).toNat =
      a.toNat * 2 ^ 39 + b.toNat * 2 ^ 30 + c.toNat * 2 ^ 21 + d.toNat * 2 ^ 12 := by
    unfold addressOf
    rw [BitVec.toNat_ofNat]
    omega
  have h4 : pml4Index (addressOf a b c d) = a := index_eq (by rw [hn]; omega)
  have h3 : pdptIndex (addressOf a b c d) = b := index_eq (by rw [hn]; omega)
  have h2 : pdIndex (addressOf a b c d) = c := index_eq (by rw [hn]; omega)
  have h1 : ptIndex (addressOf a b c d) = d := index_eq (by rw [hn]; omega)
  unfold pagePath dirPath
  rw [h4, h3, h2, h1]
  rfl

theorem exists_pagePath (h : p.length = 4) : ∃ virt, pagePath virt = p := by
  match p, h with
  | [a, b, c, d], _ => exact ⟨addressOf a b c d, pagePath_addressOf a b c d⟩

/-- A walk in the user half begins with an index of the user half. -/
theorem user_of_walk (hw : walk next (userHalf root mem) root (i :: p) = some f) :
    i.toNat < 256 := by
  by_contra hi
  have hz : userHalf root mem root i = 0 := if_pos ⟨rfl, by omega⟩
  rw [walk_cons, hz, next_zero] at hw
  exact absurd hw (by simp)

/-- A walk that leads nowhere stops at an entry that points to no table. -/
theorem exists_stop (h : walk next mem t p = none) :
    ∃ q i u, q ++ [i] <+: p ∧ walk next mem t q = some u ∧ next (mem u i) = none := by
  induction p generalizing t with
  | nil => exact absurd h (by simp [Radix.walk])
  | cons i p ih =>
    cases hn : next (mem t i) with
    | none => exact ⟨[], i, t, ⟨p, rfl⟩, rfl, hn⟩
    | some t' =>
      rw [walk_cons, hn] at h
      obtain ⟨q, j, u, hq, hw, hu⟩ := ih h
      refine ⟨i :: q, j, u, List.cons_prefix_cons.mpr ⟨rfl, hq⟩, ?_, hu⟩
      rw [walk_cons, hn]
      exact hw

/-- The page that is mapped at an address of the user half. -/
def UserPage (mem : Mem) (root virt f : BitVec 64) : Prop :=
  (pml4Index virt).toNat < 256 ∧ translate mem root virt = some f

/-- The entry of the page of an address. -/
def pageEntry (mem : Mem) (root virt : BitVec 64) : BitVec 64 :=
  match vmmGetLeaf mem root virt with
  | some (t, i) => mem t i
  | none => 0

namespace SpaceInv

variable (h : SpaceInv ram root mem priv)
include h

/-- No block maps a page of the user half: its frame is at the end of its path. -/
theorem translate_eq (hv : (pml4Index virt).toNat < 256) :
    translate mem root virt = walk next (userHalf root mem) root (pagePath virt) := by
  have hdir : ∀ q : List (BitVec 9), q.length ≤ 2 →
      walk next mem root (pml4Index virt :: q) =
        walk next (userHalf root mem) root (pml4Index virt :: q) :=
    fun q hq => h.walk_user hv (by omega)
  have hd : walk next mem root (dirPath virt) = walk next (userHalf root mem) root (dirPath virt) :=
    hdir _ (by simp)
  unfold pagePath
  rw [walk_append, ← hd]
  cases hw : walk next mem root (dirPath virt) with
  | some t =>
    have hwu := hd ▸ hw
    have hu : userHalf root mem t (ptIndex virt) = mem t (ptIndex virt) :=
      userHalf_apply (h.lower (by simp) (by simp [dirPath]) hwu)
    rw [translate_of_leaf hw, Option.bind_some, walk_cons, hu]
    split
    · next hv' =>
      have hn : next (mem t (ptIndex virt)) ≠ none := by
        rw [← hu] at hv' ⊢
        exact h.whole _ _ t (by simp) hwu hv'
      rw [next_eq_some hn]
      rfl
    · next hv' =>
      rw [next_of_not_valid hv']
      rfl
  | none =>
    obtain ⟨q, i, u, hq, hwq, hn⟩ := exists_stop hw
    have hlen := hq.length_le
    simp only [List.length_append, List.length_singleton, dirPath_length] at hlen
    rw [Option.bind_none]
    apply translate_of_hole hwq (hq.trans (List.prefix_append _ _))
    intro hvi
    have hlow : Lower root u i ∧ walk next (userHalf root mem) root q = some u := by
      cases q with
      | nil =>
        have hi : i = pml4Index virt := by
          obtain ⟨r, hr⟩ := hq
          exact (List.cons.inj hr).1
        exact ⟨fun _ => hi ▸ hv, hwq⟩
      | cons j q =>
        have hj : j = pml4Index virt := by
          obtain ⟨r, hr⟩ := hq
          exact (List.cons.inj hr).1
        rw [hj] at hwq ⊢
        rw [hdir q (by simp at hlen; omega)] at hwq
        exact ⟨h.lower (by simp at hlen ⊢; omega) (by simp) hwq, hwq⟩
    have hu : userHalf root mem u i = mem u i := userHalf_apply hlow.1
    rw [← hu] at hvi hn
    exact h.whole q i u (by omega) hlow.2 hvi hn

theorem userPage_iff : UserPage mem root virt f ↔
    walk next (userHalf root mem) root (pagePath virt) = some f := by
  unfold UserPage
  constructor
  · intro ⟨hv, ht⟩
    rw [← h.translate_eq hv]
    exact ht
  · intro hw
    have hv : (pml4Index virt).toNat < 256 := user_of_walk hw
    exact ⟨hv, (h.translate_eq hv).trans hw⟩

theorem entryAt_eq (hp : UserPage mem root virt f) :
    entryAt (userHalf root mem) root (pagePath virt) = pageEntry mem root virt := by
  have hw := h.userPage_iff.mp hp
  unfold pagePath at hw ⊢
  rw [walk_concat] at hw
  obtain ⟨t, ht, -⟩ := Option.bind_eq_some_iff.mp hw
  have hd : walk next mem root (dirPath virt) = some t := (h.walk_user hp.1 (by simp)).trans ht
  have hu : userHalf root mem t (ptIndex virt) = mem t (ptIndex virt) :=
    userHalf_apply (h.lower (by simp) (by simp [dirPath]) ht)
  rw [entryAt_concat ht, hu]
  unfold pageEntry vmmGetLeaf
  rw [hd]
  rfl

end SpaceInv

/-- All frames at the ends of paths are frame addresses. -/
theorem walk_aligned (hr : root &&& VMM_PHYS_MASK = root) :
    ∀ p f, walk next mem root p = some f → f &&& VMM_PHYS_MASK = f := by
  intro p f hw
  by_cases hp : p = []
  · rw [hp] at hw
    rw [← Option.some.inj hw]
    exact hr
  · rw [← entryAt_frame hw hp, BitVec.and_assoc, BitVec.and_self]

theorem wanted_table (hp : p.length ≤ 3) (pmm : Pmm.Machine) : wanted mem root p pmm = true := by
  unfold wanted
  simp only [decide_eq_true_eq]
  exact Or.inl (by omega)

theorem wanted_page (hp : p.length = 4) (pmm : Pmm.Machine) :
    wanted mem root p pmm = isPrivate pmm (entryAt mem root p) := by
  simp [wanted, hp]

/-! ## What is meant -/

/-- The frame is handed out by the frame manager at all. -/
def InPool (L : Pmm.Layout) (f : BitVec 64) : Prop := f.toNat / 4096 ∈ L.pool

/-- A table of the user half, or the root. -/
def TablePage (mem : Mem) (root f : BitVec 64) : Prop :=
  ∃ p, p.length ≤ 3 ∧ walk next (userHalf root mem) root p = some f

/-- A page of the user half whose frame was given for it alone. -/
def PrivateLeaf (mem : Mem) (root : BitVec 64) (priv : List (BitVec 64)) (f : BitVec 64) : Prop :=
  f ∈ priv ∧ ∃ virt, UserPage mem root virt f

/-- Each table of the user half, the root and each private page is given back once; other frames
that the manager handles are not, and for the rest it does nothing. Memory changes in the user
half of the root alone. -/
structure TornDown (L : Pmm.Layout) (root : BitVec 64) (mem : Mem) (priv : List (BitVec 64))
    (o : Mem × Teardown × Bool) : Prop where
  done : o.2.2 = true
  once : ∀ f, TablePage mem root f ∨ PrivateLeaf mem root priv f → o.2.1.released.count f = 1
  only : ∀ f ∈ o.2.1.released, InPool L f → TablePage mem root f ∨ PrivateLeaf mem root priv f
  idle : ∀ f ∈ o.2.1.released, ¬InPool L f → ∀ m A pmm, Pmm.HeldInv L m A pmm →
    Pmm.step pmm (.releasePage (UInt64.ofBitVec f)) = pmm
  kernel : ∀ i, 256 ≤ i.toNat → o.1 root i = mem root i
  others : ∀ t, t ≠ root → o.1 t = mem t

/-- Among the pages of the user half that the frame manager handles, those given for the address
space alone are the ones that are neither device memory nor have a backing block. -/
def Marked (L : Pmm.Layout) (root : BitVec 64) (mem : Mem) (priv : List (BitVec 64))
    (pmm : Pmm.Machine) : Prop :=
  ∀ virt f, UserPage mem root virt f → InPool L f →
    (f ∈ priv ↔ isPrivate pmm (pageEntry mem root virt) = true)

theorem pass_mem {l : List (List (BitVec 9))} (hf : f ∈ (l.foldl (visit mem root) s).released) :
    f ∈ s.released ∨ ∃ p ∈ l, walk next mem root p = some f := by
  induction l generalizing s with
  | nil => exact Or.inl hf
  | cons p l ih =>
    obtain hf | ⟨q, hq, hw⟩ := ih hf
    · unfold visit at hf
      split at hf
      · exact Or.inl hf
      · next g hg =>
        split at hf
        · unfold Teardown.release at hf
          obtain hf | hf := List.mem_append.mp hf
          · exact Or.inl hf
          · rw [List.mem_singleton.mp hf]
            exact Or.inr ⟨p, by simp, hg⟩
        · exact Or.inl hf
    · exact Or.inr ⟨q, by simp [hq], hw⟩

theorem SpaceInv.not_table (h : SpaceInv (InPool L) root mem priv) (hf : InPool L f)
    (hw : walk next (userHalf root mem) root p = some f) (hl : p.length = 4) :
    ¬TablePage mem root f := by
  intro ⟨q, hq, hwq⟩
  exact unreached_iff.mp (h.leaves p f hl hw hf) q hq hwq

section Destroy

variable (h : SpaceInv (InPool L) root mem priv) (hr : root &&& VMM_PHYS_MASK = root)
  {m : ℕ → List ℕ} {A : Finset ℕ} {pmm : Pmm.Machine} (hp : Pmm.HeldInv L m A pmm)
  {ttbr0 : BitVec 64} (ha : ttbr0 &&& VMM_PHYS_MASK ≠ root)
include h hr hp ha

/-- A frame at the end of one path only. -/
theorem count_destroy (hw : walk next (userHalf root mem) root p = some f) (hl : p.length ≤ 4)
    (hu : ∀ q, q.length ≤ 4 → walk next (userHalf root mem) root q = some f → q = p) :
    (auDestroyVirtualAddressSpace mem pmm ttbr0 (some root)).2.1.released.count f =
      if wanted (userHalf root mem) root p pmm then 1 else 0 := by
  have hk : Kept L ⟨pmm, []⟩ := ⟨m, A, hp⟩
  rw [auDestroyVirtualAddressSpace_eq h pmm ha,
    pass_once (walk_aligned hr) hk (walk_aligned hr p f hw)
      ((mem_postorder mem_indices).mpr ⟨hl, f, hw⟩) (nodup_postorder nodup_indices) hw]
  · exact Nat.zero_add _
  · intro q hq hwq
    exact hu q ((mem_postorder mem_indices).mp hq).1 hwq

theorem count_table (hf : TablePage mem root f) :
    (auDestroyVirtualAddressSpace mem pmm ttbr0 (some root)).2.1.released.count f = 1 := by
  obtain ⟨p, hl, hw⟩ := hf
  rw [count_destroy h hr hp ha hw (by omega), wanted_table hl, if_pos rfl]
  intro q hq hwq
  by_cases hq3 : q.length ≤ 3
  · exact h.forest root (by simp) root (by simp) q p f hq3 hl hwq hw
  · exact absurd ⟨p, hl, hw⟩ (h.not_table (h.tables p f hl hw) hwq (by omega))

theorem count_page (hf : f ∈ priv) (hv : UserPage mem root virt f) :
    (auDestroyVirtualAddressSpace mem pmm ttbr0 (some root)).2.1.released.count f =
      if isPrivate pmm (pageEntry mem root virt) then 1 else 0 := by
  have hw := h.userPage_iff.mp hv
  rw [count_destroy h hr hp ha hw le_rfl, wanted_page rfl, h.entryAt_eq hv]
  intro q hq hwq
  by_cases hq3 : q.length ≤ 3
  · exact absurd ⟨q, hq3, hwq⟩ (h.not_table (h.ramPriv f hf) hw rfl)
  · exact h.once q _ f (by omega) rfl hwq hw hf

/-- What is given back lies at the end of a path that is wanted at the outset. -/
theorem wanted_of_mem
    (hf : f ∈ (auDestroyVirtualAddressSpace mem pmm ttbr0 (some root)).2.1.released) :
    ∃ p, p.length ≤ 4 ∧ walk next (userHalf root mem) root p = some f ∧
      wanted (userHalf root mem) root p pmm = true := by
  have hk : Kept L ⟨pmm, []⟩ := ⟨m, A, hp⟩
  rw [auDestroyVirtualAddressSpace_eq h pmm ha] at hf
  by_contra hn
  push Not at hn
  obtain hf' | ⟨p, -, hw⟩ := pass_mem hf
  · exact absurd hf' List.not_mem_nil
  · have hq := pass_quiet (walk_aligned hr) hk (walk_aligned hr p f hw)
      (l := postorder next indices (userHalf root mem) 4 root) fun q hq hwq =>
        Bool.eq_false_iff.mpr (hn q ((mem_postorder mem_indices).mp hq).1 hwq)
    have hz := hq.count
    rw [List.count_nil] at hz
    exact List.count_eq_zero.mp hz hf

theorem mem_of_wanted (hl : p.length ≤ 4) (hw : walk next (userHalf root mem) root p = some f)
    (hwant : wanted (userHalf root mem) root p pmm = true) :
    f ∈ (auDestroyVirtualAddressSpace mem pmm ttbr0 (some root)).2.1.released := by
  have hk : Kept L ⟨pmm, []⟩ := ⟨m, A, hp⟩
  have hlt := pass_wanted (walk_aligned hr) hk (walk_aligned hr p f hw)
    ((mem_postorder mem_indices).mpr ⟨hl, f, hw⟩) hw hwant
  rw [← auDestroyVirtualAddressSpace_eq h pmm ha] at hlt
  exact List.count_pos_iff.mp (Nat.lt_of_le_of_lt (Nat.zero_le _) hlt)

theorem tornDown_of_marked (hm : Marked L root mem priv pmm) :
    TornDown L root mem priv (auDestroyVirtualAddressSpace mem pmm ttbr0 (some root)) := by
  have hactive : auIsVirtualAddressSpaceActive ttbr0 root = false := decide_eq_false ha
  constructor
  · unfold auDestroyVirtualAddressSpace
    dsimp only
    rw [hactive]
    rfl
  · intro f hf
    obtain hf | ⟨hf, virt, hv⟩ := hf
    · exact count_table h hr hp ha hf
    · rw [count_page h hr hp ha hf hv, if_pos ((hm virt f hv (h.ramPriv f hf)).mp hf)]
  · intro f hf hpool
    obtain ⟨p, hl, hw, hwant⟩ := wanted_of_mem h hr hp ha hf
    by_cases hl3 : p.length ≤ 3
    · exact Or.inl ⟨p, hl3, hw⟩
    · obtain ⟨virt, rfl⟩ := exists_pagePath (p := p) (by omega)
      have hv := h.userPage_iff.mpr hw
      rw [wanted_page rfl, h.entryAt_eq hv] at hwant
      exact Or.inr ⟨(hm virt f hv hpool).mpr hwant, virt, hv⟩
  · intro f _ hpool m A pmm hi
    exact hi.releasePage_outside hpool
  · intro i hi
    unfold auDestroyVirtualAddressSpace
    dsimp only
    rw [hactive]
    exact if_neg fun hc => absurd hc.2 (by omega)
  · intro t ht
    unfold auDestroyVirtualAddressSpace
    dsimp only
    rw [hactive]
    funext i
    exact if_neg fun hc => ht hc.1

theorem marked_of_tornDown
    (ht : TornDown L root mem priv (auDestroyVirtualAddressSpace mem pmm ttbr0 (some root))) :
    Marked L root mem priv pmm := by
  intro virt f hv hpool
  have hw := h.userPage_iff.mp hv
  constructor
  · intro hf
    have hc := ht.once f (Or.inr ⟨hf, virt, hv⟩)
    rw [count_page h hr hp ha hf hv] at hc
    by_contra hn
    rw [if_neg hn] at hc
    exact absurd hc (by decide)
  · intro hmark
    have hwant : wanted (userHalf root mem) root (pagePath virt) pmm = true := by
      rw [wanted_page rfl, h.entryAt_eq hv]
      exact hmark
    obtain htab | hpriv := ht.only f (mem_of_wanted h hr hp ha le_rfl hw hwant) hpool
    · exact absurd htab (h.not_table hpool hw rfl)
    · exact hpriv.1

end Destroy

/-- After every run of calls on a new address space, its teardown does what is meant exactly when
its pages are marked for what they are. -/
theorem exec_tornDown (L : Pmm.Layout) (mem : Mem) (kernelRoot root : BitVec 64)
    (hr : root &&& VMM_PHYS_MASK = root) (hpool : InPool L root) (acts : List SpaceAct)
    (hok : Respects (SpaceOk (InPool L) root) (spaceStep root) (newSpace mem kernelRoot root) acts)
    (m : ℕ → List ℕ) (A : Finset ℕ) (pmm : Pmm.Machine) (hp : Pmm.HeldInv L m A pmm)
    (ttbr0 : BitVec 64) (ha : ttbr0 &&& VMM_PHYS_MASK ≠ root) :
    TornDown L root (run (spaceStep root) (newSpace mem kernelRoot root) acts).mem
        (run (spaceStep root) (newSpace mem kernelRoot root) acts).priv
        (auDestroyVirtualAddressSpace (run (spaceStep root) (newSpace mem kernelRoot root) acts).mem
          pmm ttbr0 (some root)) ↔
      Marked L root (run (spaceStep root) (newSpace mem kernelRoot root) acts).mem
        (run (spaceStep root) (newSpace mem kernelRoot root) acts).priv pmm := by
  have h := exec_space mem kernelRoot hpool hok
  exact ⟨marked_of_tornDown h hr hp ha, tornDown_of_marked h hr hp ha⟩

/-! ## One page -/

theorem inPool_small (hp : Pmm.PlanOk Pmm.smallMap Pmm.smallPlan) (h : 260 ≤ f.toNat / 4096)
    (hlt : f.toNat / 4096 < 272) : InPool (Pmm.planLayout hp) f := by
  have hgaps : Pmm.allGaps Pmm.smallPlan = [⟨260, 272⟩] := by decide
  apply Finset.mem_filter.mpr
  refine ⟨Finset.mem_range.mpr hlt, ⟨260, 272⟩, ?_, ?_⟩
  · rw [hgaps]
    exact List.mem_singleton.mpr rfl
  · exact Pmm.inRange_iff.mpr ⟨h, hlt⟩

/-- Three frames of the small map. -/
def smallPages (k : Fin 3) : BitVec 64 := 0x105000 + 0x1000 * BitVec.ofNat 64 k

def smallSpace : Space := newSpace (fun _ _ => 0) 0 0x104000

/-- A page of its own for the new address space. -/
def mapOne : SpaceAct := .mapEx true 0x108000 0x60001000 0x44 smallPages

/-- What `CreateMemMapping` does to its entry for `PROTECTION_FLAG_NO_CACHE`. -/
def noCache : SpaceAct := .attributes 0x60001000 0x743

theorem smallSpace_mem : smallSpace.mem = fun _ _ => 0 := by
  funext t i
  simp [smallSpace, newSpace, auCreateVirtualAddressSpace]

theorem smallSpace_unused (hf : f ≠ 0x104000) (n : ℕ) :
    Unreached next [0x104000] n (userHalf 0x104000 smallSpace.mem) f := by
  have hz : userHalf 0x104000 smallSpace.mem = fun _ _ => 0 := by
    funext t i
    rw [smallSpace_mem]
    exact ite_self _
  rw [unreached_iff, hz]
  intro p _ hw
  exact hf (walk_empty hw).2.symm

theorem mapOne_ok (hp : Pmm.PlanOk Pmm.smallMap Pmm.smallPlan) :
    SpaceOk (InPool (Pmm.planLayout hp)) 0x104000 smallSpace mapOne := by
  have hpages : ∀ k, smallPages k &&& VMM_PHYS_MASK = smallPages k ∧ smallPages k ≠ 0x104000 ∧
      260 ≤ (smallPages k).toNat / 4096 ∧ (smallPages k).toNat / 4096 < 272 ∧
      0x108000 &&& VMM_PHYS_MASK ≠ smallPages k := by decide
  constructor
  · decide
  · constructor
    · intro _
      exact inPool_small hp (by decide) (by decide)
    · intro _
      exact smallSpace_unused (by decide) 3
    · intro _
      exact smallSpace_unused (by decide) 4
  · intro k _ _
    obtain ⟨h1, h2, h3, h4, -⟩ := hpages k
    exact ⟨inPool_small hp h3 h4, h1, smallSpace_unused h2 4⟩
  · decide
  · intro k _ _
    exact (hpages k).2.2.2.2

theorem mapOne_other (hne : pagePath virt ≠ pagePath 0x60001000) :
    translate (spaceStep 0x104000 smallSpace mapOne).mem 0x104000 virt = none := by
  have hpages : ∀ k, smallPages k &&& VMM_PHYS_MASK = smallPages k ∧ smallPages k ≠ 0x104000 := by
    decide
  have hmaps := auMapPageEx_maps (tables_empty 0x104000) (List.mem_singleton.mpr rfl)
    (show Frame 0x108000 by decide) 0x44
    ⟨fun k _ => spare_empty (hpages k).1 (hpages k).2, by decide⟩
    (show Clear (fun _ _ => 0) 0x104000 0x60001000 from
      fun _ _ _ _ _ hv => absurd hv not_valid_zero)
  have hz : translate (fun _ _ => 0) 0x104000 virt = none :=
    translate_of_hole (p := []) (i := pml4Index virt) rfl
      ⟨[pdptIndex virt, pdIndex virt, ptIndex virt], rfl⟩ not_valid_zero
  have hother := hmaps.2.other 0x104000 (List.mem_singleton.mpr rfl) virt fun _ => hne
  rw [hz] at hother
  unfold spaceStep mapOne
  rw [smallSpace_mem]
  exact hother

/-- The page goes back with the tables and the root of its address space. -/
theorem exec_tornDown_one : ∃ L st, Pmm.auPmmngrInitialize true Pmm.smallMap = .ok st ∧
    TornDown L 0x104000 (run (spaceStep 0x104000) smallSpace [mapOne]).mem
      (run (spaceStep 0x104000) smallSpace [mapOne]).priv
      (auDestroyVirtualAddressSpace (run (spaceStep 0x104000) smallSpace [mapOne]).mem
        (Pmm.boot st) 0 (some 0x104000)) := by
  have hok : (Pmm.auPmmngrInitialize true Pmm.smallMap).toBool = true := by decide +kernel
  have hback : (match Pmm.auPmmngrInitialize true Pmm.smallMap with
      | .ok st => Pmm.auPmmngrGetBackingBlock st (UInt64.ofBitVec 0x108000)
      | .error _ => 0) = -1 := by decide +kernel
  have hplan : Pmm.planMemory Pmm.smallMap = .ok Pmm.smallPlan := by decide +kernel
  cases hst : Pmm.auPmmngrInitialize true Pmm.smallMap with
  | error e =>
    rw [hst] at hok
    cases hok
  | ok st =>
    rw [hst] at hback
    obtain ⟨plan, hp, m, hplan', hi⟩ := Pmm.auPmmngrInitialize_ok hst Pmm.noHugeRun_smallMap
    obtain rfl : plan = Pmm.smallPlan := Except.ok.inj (hplan'.symm.trans hplan)
    refine ⟨Pmm.planLayout hp, st, rfl, ?_⟩
    have hroot := inPool_small (f := 0x104000) hp (by decide) (by decide)
    have hacts : Respects (SpaceOk (InPool (Pmm.planLayout hp)) 0x104000) (spaceStep 0x104000)
        smallSpace [mapOne] := ⟨mapOne_ok hp, trivial⟩
    apply (exec_tornDown (Pmm.planLayout hp) (fun _ _ => 0) 0 0x104000 (by decide) hroot [mapOne]
      hacts m ∅ (Pmm.boot st) hi.toHeldInv 0 (by decide)).mpr
    intro virt f hv _
    have hpath : pagePath virt = pagePath 0x60001000 := by
      by_contra hne
      exact absurd ((mapOne_other hne).symm.trans hv.2) (by simp)
    obtain ⟨hd, hpt⟩ := pagePath_inj hpath
    have hleaf : vmmGetLeaf (spaceStep 0x104000 smallSpace mapOne).mem 0x104000 virt =
        some (0x107000, ptIndex 0x60001000) := by
      unfold vmmGetLeaf
      rw [hd, hpt]
      decide +kernel
    have hentry : pageEntry (spaceStep 0x104000 smallSpace mapOne).mem 0x104000 virt = 0x108747 := by
      unfold pageEntry
      rw [hleaf]
      decide +kernel
    have hf : f = 0x108000 := by
      have hw := (exec_space (fun _ _ => 0) 0 hroot hacts).userPage_iff.mp hv
      have hw' : walk next (userHalf 0x104000 (spaceStep 0x104000 smallSpace mapOne).mem) 0x104000
          (pagePath 0x60001000) = some 0x108000 := by decide +kernel
      rw [hpath] at hw
      exact Option.some.inj (hw.symm.trans hw')
    have hpriv : isPrivate (Pmm.boot st) 0x108747 = true := by
      apply decide_eq_true
      exact ⟨by decide, hback⟩
    apply iff_of_true
    · rw [hf]
      decide +kernel
    · exact (congrArg (isPrivate (Pmm.boot st)) hentry).trans hpriv

/-- The page that must not be cached counts as device memory and stays with nobody. -/
theorem not_exec_tornDown : ¬ ∀ (L : Pmm.Layout) (mem : Mem) (kernelRoot root : BitVec 64),
    root &&& VMM_PHYS_MASK = root → InPool L root → ∀ acts : List SpaceAct,
    Respects (SpaceOk (InPool L) root) (spaceStep root) (newSpace mem kernelRoot root) acts →
    ∀ m A pmm, Pmm.HeldInv L m A pmm → ∀ ttbr0 : BitVec 64, ttbr0 &&& VMM_PHYS_MASK ≠ root →
      TornDown L root (run (spaceStep root) (newSpace mem kernelRoot root) acts).mem
        (run (spaceStep root) (newSpace mem kernelRoot root) acts).priv
        (auDestroyVirtualAddressSpace
          (run (spaceStep root) (newSpace mem kernelRoot root) acts).mem pmm ttbr0
          (some root)) := by
  intro hall
  have hok : (Pmm.auPmmngrInitialize true Pmm.smallMap).toBool = true := by decide +kernel
  have hplan : Pmm.planMemory Pmm.smallMap = .ok Pmm.smallPlan := by decide +kernel
  cases hst : Pmm.auPmmngrInitialize true Pmm.smallMap with
  | error e =>
    rw [hst] at hok
    cases hok
  | ok st =>
    obtain ⟨plan, hp, m, hplan', hi⟩ := Pmm.auPmmngrInitialize_ok hst Pmm.noHugeRun_smallMap
    obtain rfl : plan = Pmm.smallPlan := Except.ok.inj (hplan'.symm.trans hplan)
    have hroot := inPool_small (f := 0x104000) hp (by decide) (by decide)
    have hacts : Respects (SpaceOk (InPool (Pmm.planLayout hp)) 0x104000) (spaceStep 0x104000)
        smallSpace [mapOne, noCache] :=
      ⟨mapOne_ok hp, show (pml4Index 0x60001000).toNat < 256 by decide, trivial⟩
    have hdown := hall _ (fun _ _ => 0) 0 0x104000 (by decide) hroot _ hacts m ∅ (Pmm.boot st)
      hi.toHeldInv 0 (by decide)
    have hmark := marked_of_tornDown (exec_space _ 0 hroot hacts) (by decide) hi.toHeldInv
      (by decide) hdown
    have hpage : UserPage (run (spaceStep 0x104000) smallSpace [mapOne, noCache]).mem 0x104000
        0x60001000 0x108000 := ⟨by decide, by decide +kernel⟩
    have hin := inPool_small (f := 0x108000) hp (by decide) (by decide)
    have hpriv := (hmark 0x60001000 0x108000 hpage hin).mp (by decide +kernel)
    have hdev : pageEntry (run (spaceStep 0x104000) smallSpace [mapOne, noCache]).mem 0x104000
        0x60001000 &&& PTE_ATTR_MASK = PTE_DEVICE_MEM := by decide +kernel
    unfold isPrivate at hpriv
    exact absurd hdev (of_decide_eq_true hpriv).1

end Xeneva.Vmm
