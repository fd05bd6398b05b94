import Xeneva.Mm.Vmmngr

/-!
# Mapping, looking up and unmapping

What each call does to the pages of all address spaces, and what stays true over a run.
-/

namespace Xeneva.Vmm
open Base Base.Radix

variable {roots : List (BitVec 64)} {mem mem' : Mem} {root r t virt v page phys flags desc :
  BitVec 64} {p : List (BitVec 9)} {i : BitVec 9}

/-- A successful map gives the page, which had none, the frame, and no other page of any
address space changes; a failed one changes none at all. -/
structure MapRight (roots : List (BitVec 64)) (mem : Mem) (root virt phys : BitVec 64)
    (o : Mem × Bool) : Prop where
  done : o.2 = true → ∀ v, pagePath v = pagePath virt →
    translate mem root v = none ∧ translate o.1 root v = some (phys &&& VMM_PHYS_MASK)
  other : ∀ r ∈ roots, ∀ v, (o.2 = true → pagePath v ≠ pagePath virt) →
    translate o.1 r v = translate mem r v

/-- The mapped pages of the range, which starts at `virt`, are gone, but those of a block stay;
no other page of any address space changes. -/
structure UnmapRight (roots : List (BitVec 64)) (mem : Mem) (root : BitVec 64 → BitVec 64) (n : ℕ)
    (virt : BitVec 64) (mem' : Mem) : Prop where
  inside : ∀ k < n, ∀ v, pagePath v = pagePath (virt + BitVec.ofNat 64 k * PAGE_SIZE) →
    walk next mem (root (virt + BitVec.ofNat 64 k * PAGE_SIZE)) (dirPath v) ≠ none →
    translate mem' (root (virt + BitVec.ofNat 64 k * PAGE_SIZE)) v = none
  block : ∀ r ∈ roots, ∀ v, walk next mem r (dirPath v) = none →
    translate mem' r v = translate mem r v
  outside : ∀ r ∈ roots, ∀ v,
    (∀ k < n, pagePath v ≠ pagePath (virt + BitVec.ofNat 64 k * PAGE_SIZE)) →
    translate mem' r v = translate mem r v

/-! ## Mapping -/

/-- A map call that keeps the tables and does what is meant. -/
def Maps (roots : List (BitVec 64)) (mem : Mem) (root virt phys : BitVec 64) (o : Mem × Bool) :
    Prop := Tables roots o.1 ∧ MapRight roots mem root virt phys o

theorem Maps.fail (ht : Tables roots mem) : Maps roots mem root virt phys (mem, false) := by
  refine ⟨ht, ?_, fun _ _ _ _ => rfl⟩
  intro h
  exact absurd h Bool.false_ne_true

/-- What a map does may be told from a memory for the same address spaces. -/
theorem Maps.of_same (hr : root ∈ roots) (hs : Same roots mem mem') {o : Mem × Bool}
    (h : Maps roots mem' root virt phys o) : Maps roots mem root virt phys o := by
  refine ⟨h.1, ?_, ?_⟩
  · intro hd v hv
    rw [← hs.translate root hr]
    exact h.2.done hd v hv
  · intro r hr v hv
    rw [← hs.translate r hr]
    exact h.2.other r hr v hv

theorem vmmSetPage_maps (hf : TableFlags flags) (ht : Tables roots mem) (hr : root ∈ roots)
    (hp : Plain (phys &&& ~~~PAGE_MASK ||| flags)) (hw : walk next mem root (dirPath virt) = some t) :
    Maps roots mem root virt phys (vmmSetPage phys flags mem t (ptIndex virt)) := by
  unfold vmmSetPage
  split
  · exact Maps.fail ht
  · next hv =>
    refine ⟨ht.write_page hr hw fun _ => hp, ?_, ?_⟩
    · intro _ v hv'
      constructor
      · obtain ⟨hd, hi⟩ := pagePath_inj hv'
        rw [translate_of_leaf (hd ▸ hw), hi, if_neg hv]
      · rw [ht.translate_write hr hw hr, if_pos ⟨hv', hw⟩, if_pos (hf.valid phys), hf.frame]
    · intro r hr' v hv'
      rw [ht.translate_write hr hw hr', if_neg fun hc => hv' rfl hc.1]

/-- The rule for one level: it fails, or goes on with the table at the end of the longer path,
or with a block. -/
theorem Maps.level (hf : TableFlags flags) (ht : Tables roots mem) (hr : root ∈ roots)
    (hp : p.length < 3) (hw : walk next mem root p = some t)
    (hs : page ≠ PMM_INVALID_PHYS → Spare roots mem page) {f : Mem → BitVec 64 → Mem × Bool}
    (hgo : ∀ mem' u, Same roots mem mem' → walk next mem' root p = some t →
      (∀ g, Spare roots mem g → g ≠ page → Spare roots mem' g) →
      next (mem' t i) = some u ∨ (valid (mem' t i) ∧ next (mem' t i) = none) →
      Maps roots mem' root virt phys (f mem' u)) :
    Maps roots mem root virt phys (withTable (vmmTable flags page mem t i) f) := by
  unfold withTable
  obtain he | ⟨u, he, hn⟩ | ⟨u, he, hn⟩ | ⟨d, he, hl, hh, hv⟩ :=
    vmmTable_cases hf (i := i) ht hr hp hw hs
  · rw [he]
    exact Maps.fail ht
  · rw [he]
    exact hgo mem u (Same.refl ht) hw (fun _ hg _ => hg) (Or.inl hn)
  · rw [he]
    exact hgo mem u (Same.refl ht) hw (fun _ hg _ => hg) (Or.inr hn)
  · rw [he]
    have hsame := ht.link_same hl hh hv
    apply Maps.of_same hr hsame
    apply hgo _ page hsame (hl.walk_table hr hw)
    · intro g hg hne
      exact ⟨hg.aligned, hl.unreached_link hg.unreached hne⟩
    · apply Or.inl
      unfold link
      rw [write_self]
      exact hl.points

/-- The frames the allocator gives for the three levels are in no use as tables. -/
structure SparePages (roots : List (BitVec 64)) (mem : Mem) (pages : Fin 3 → BitVec 64) :
    Prop where
  spare : ∀ k, pages k ≠ PMM_INVALID_PHYS → Spare roots mem (pages k)
  distinct : ∀ k l, k ≠ l → pages k ≠ PMM_INVALID_PHYS → pages k ≠ pages l

/-- The address of a frame; the direct map would put frame `2^47` at address zero. -/
def Frame (phys : BitVec 64) : Prop :=
  phys &&& HIGH_BITS = 0 ∧ phys &&& VMM_PHYS_MASK ≠ 0x0000800000000000

instance (phys : BitVec 64) : Decidable (Frame phys) :=
  inferInstanceAs (Decidable (_ ∧ _))

theorem Frame.plain (h : Frame phys) (hf : TableFlags flags) :
    Plain (phys &&& ~~~PAGE_MASK ||| flags) := by
  unfold Plain
  rw [hf.high, hf.frame]
  exact h

theorem walk_extend (hw : walk next mem root p = some t) {u : BitVec 64}
    (hn : next (mem t i) = some u) : walk next mem root (p ++ [i]) = some u := by
  rw [walk_concat, hw]
  exact hn

theorem flags_table : TableFlags (PTE_VALID ||| PTE_TABLE) := ⟨by decide, by decide⟩

theorem flagsEx_table : TableFlags (PTE_VALID ||| PTE_TABLE ||| PTE_AF) := ⟨by decide, by decide⟩

/-- `AuMapPageEx` does what is meant where no block is on the way. -/
theorem auMapPageEx_maps (ht : Tables roots mem) (hr : root ∈ roots) (hp : Frame phys)
    (attrib : BitVec 8) {pages : Fin 3 → BitVec 64} (hs : SparePages roots mem pages)
    (hc : Clear mem root virt) :
    Maps roots mem root virt phys (auMapPageEx mem root phys virt attrib pages) := by
  unfold auMapPageEx
  apply Maps.level (p := []) flagsEx_table ht hr (by decide) rfl (hs.spare 0)
  intro m₁ pml3 s₁ w₁ f₁ n₁
  have c₁ := s₁.clear root hr virt hc
  have n₁ : next (m₁ root (pml4Index virt)) = some pml3 := n₁.resolve_right fun h =>
    c₁ [] _ ⟨[pdptIndex virt, pdIndex virt], rfl⟩ root w₁ h.1 h.2
  have w₁ := walk_extend w₁ n₁
  apply Maps.level (p := [pml4Index virt]) flagsEx_table s₁.tables hr (by simp) w₁
  · intro h1
    exact f₁ _ (hs.spare 1 h1) (hs.distinct 1 0 (by decide) h1)
  intro m₂ pml2 s₂ w₂ f₂ n₂
  have c₂ := s₂.clear root hr virt c₁
  have n₂ : next (m₂ pml3 (pdptIndex virt)) = some pml2 := n₂.resolve_right fun h =>
    c₂ [pml4Index virt] _ ⟨[pdIndex virt], rfl⟩ pml3 w₂ h.1 h.2
  have w₂ := walk_extend w₂ n₂
  apply Maps.level (p := [pml4Index virt, pdptIndex virt]) flagsEx_table s₂.tables hr (by simp) w₂
  · intro h2
    exact f₂ _ (f₁ _ (hs.spare 2 h2) (hs.distinct 2 0 (by decide) h2))
      (hs.distinct 2 1 (by decide) h2)
  intro m₃ pml1 s₃ w₃ _ n₃
  have c₃ := s₃.clear root hr virt c₂
  have n₃ : next (m₃ pml2 (pdIndex virt)) = some pml1 := n₃.resolve_right fun h =>
    c₃ [pml4Index virt, pdptIndex virt] _ (List.prefix_refl _) pml2 w₃ h.1 h.2
  have hf := mapFlagsEx_table attrib
  exact vmmSetPage_maps hf s₃.tables hr (hp.plain hf) (walk_extend w₃ n₃)

theorem low_bits (desc : BitVec 64) : desc &&& 0x3 = 0x0 ∨ desc &&& 0x3 = PTE_VALID ∨
    desc &&& 0x3 = PTE_TABLE ∨ desc &&& 0x3 = PTE_VALID ||| PTE_TABLE := by
  have hlt : (desc &&& 0x3).toNat < 4 := by
    rw [BitVec.toNat_and]
    exact lt_of_le_of_lt Nat.and_le_right (by decide)
  have hval : (desc &&& 0x3).toNat = 0 ∨ (desc &&& 0x3).toNat = 1 ∨ (desc &&& 0x3).toNat = 2 ∨
      (desc &&& 0x3).toNat = 3 := by omega
  have heq : ∀ b : BitVec 64, (desc &&& 0x3).toNat = b.toNat → desc &&& 0x3 = b :=
    fun b => BitVec.eq_of_toNat_eq
  exact hval.imp (heq 0x0) (Or.imp (heq PTE_VALID) (Or.imp (heq PTE_TABLE) (heq _)))

/-- A descriptor that `AuMapPage` accepts is no block. -/
theorem next_of_not_refused {u : BitVec 64} (h : ¬vmmRefused desc)
    (hn : next desc = some u ∨ (valid desc ∧ next desc = none)) : next desc = some u := by
  apply hn.resolve_right
  intro ⟨hv, hnone⟩
  have hand : desc &&& PTE_VALID = (desc &&& 0x3) &&& PTE_VALID := by
    rw [BitVec.and_assoc]
    rfl
  unfold valid at hv
  rw [hand] at hv
  obtain hb | hb | hb | hb := low_bits desc
  · rw [hb] at hv
    exact absurd hv (by decide)
  · exact h (decide_eq_true (Or.inr hb))
  · rw [hb] at hv
    exact absurd hv (by decide)
  · have hn : next desc = some (desc &&& VMM_PHYS_MASK) := if_pos hb
    exact Option.some_ne_none _ (hn.symm.trans hnone)

/-- `AuMapPage` does what is meant on every address. -/
theorem auMapPage_maps (ht : Tables roots mem) (hr : root ∈ roots) (hp : Frame phys)
    (attrib : BitVec 8) {pages : Fin 3 → BitVec 64} (hs : SparePages roots mem pages) :
    Maps roots mem root virt phys (auMapPage mem root phys virt attrib pages) := by
  unfold auMapPage
  apply Maps.level (p := []) flags_table ht hr (by decide) rfl (hs.spare 0)
  intro m₁ pml3 s₁ w₁ f₁ n₁
  have n₁ : next (m₁ root (pml4Index virt)) = some pml3 := n₁.resolve_right fun h =>
    s₁.tables.top root hr _ h.1 h.2
  have w₁ := walk_extend w₁ n₁
  apply Maps.level (p := [pml4Index virt]) flags_table s₁.tables hr (by simp) w₁
  · intro h1
    exact f₁ _ (hs.spare 1 h1) (hs.distinct 1 0 (by decide) h1)
  intro m₂ pml2 s₂ w₂ f₂ n₂
  split
  · exact Maps.fail s₂.tables
  next hr₂ =>
  have w₂ := walk_extend w₂ (next_of_not_refused hr₂ n₂)
  apply Maps.level (p := [pml4Index virt, pdptIndex virt]) flags_table s₂.tables hr (by simp) w₂
  · intro h2
    exact f₂ _ (f₁ _ (hs.spare 2 h2) (hs.distinct 2 0 (by decide) h2))
      (hs.distinct 2 1 (by decide) h2)
  intro m₃ pml1 s₃ w₃ _ n₃
  split
  · exact Maps.fail s₃.tables
  next hr₃ =>
  have hf := mapFlags_table attrib
  exact vmmSetPage_maps hf s₃.tables hr (hp.plain hf)
    (walk_extend w₃ (next_of_not_refused hr₃ n₃))

theorem vmmFollow_of_valid (hv : valid (mem t i)) (hh : mem t i &&& HIGH_BITS = 0) :
    vmmFollow mem t i = some (mem t i &&& VMM_PHYS_MASK) := by
  unfold vmmFollow
  rw [if_pos hv, follow_eq hh]

/-- Above the last level the lookup goes where the hardware goes. -/
theorem vmmFollow_dir (ht : Tables roots mem) (hr : root ∈ roots) (hp : p.length < 3)
    (hw : walk next mem root p = some t) (hc : valid (mem t i) → next (mem t i) ≠ none) :
    vmmFollow mem t i = next (mem t i) := by
  by_cases hv : valid (mem t i)
  · have hn := hc hv
    rw [vmmFollow_of_valid hv (ht.dirs root hr p i t hp hw hn), next_eq_some hn]
  · unfold vmmFollow
    rw [if_neg hv, next_of_not_valid hv]

theorem v2p_p2v (addr : BitVec 64) : v2p (p2v addr) = addr := by
  unfold v2p p2v
  rw [BitVec.add_comm, BitVec.add_sub_cancel]

theorem p2v_eq_zero_iff (addr : BitVec 64) : p2v addr = 0 ↔ addr = 0x0000800000000000 := by
  constructor
  · intro h
    rw [← v2p_p2v addr, h]
    decide
  · intro h
    rw [h]
    decide

/-- A walk that stops at an entry that is not valid finds no page. -/
theorem translate_of_hole (hw : walk next mem root p = some t) (hp : p ++ [i] <+: pagePath virt)
    (hv : ¬valid (mem t i)) : translate mem root virt = none := by
  obtain ⟨s, hs⟩ := hp
  have hn := next_of_not_valid hv
  unfold translate
  rw [← hs, List.append_assoc, trail_append hw]
  simp only [List.singleton_append, trail, hn]
  exact decode_concat_invalid _ hv

/-- The lookup finds the frame of each page that no block maps. -/
theorem auGetPhysicalAddressEx_eq (ht : Tables roots mem) (hr : root ∈ roots)
    (hc : Clear mem root virt) :
    auGetPhysicalAddressEx mem root virt = (translate mem root virt).getD 0 := by
  have hmono : ∀ {q : List (BitVec 9)}, q <+: dirPath virt → q <+: pagePath virt :=
    fun h => h.trans (List.prefix_append _ _)
  unfold auGetPhysicalAddressEx
  simp only [Option.bind_eq_bind]
  have w₀ : walk next mem root [] = some root := rfl
  have q₀ : [] ++ [pml4Index virt] <+: dirPath virt := ⟨[pdptIndex virt, pdIndex virt], rfl⟩
  rw [vmmFollow_dir ht hr (by decide) w₀ (hc [] _ q₀ root w₀)]
  cases n₀ : next (mem root (pml4Index virt)) with
  | none =>
    have hv : ¬valid (mem root (pml4Index virt)) := fun h => hc [] _ q₀ root w₀ h n₀
    rw [translate_of_hole w₀ (hmono q₀) hv]
    rfl
  | some pdpt =>
  have w₁ := walk_extend w₀ n₀
  have q₁ : [pml4Index virt] ++ [pdptIndex virt] <+: dirPath virt := ⟨[pdIndex virt], rfl⟩
  rw [Option.bind_some, vmmFollow_dir ht hr (by simp) w₁ (hc _ _ q₁ pdpt w₁)]
  cases n₁ : next (mem pdpt (pdptIndex virt)) with
  | none =>
    have hv : ¬valid (mem pdpt (pdptIndex virt)) := fun h => hc _ _ q₁ pdpt w₁ h n₁
    rw [translate_of_hole w₁ (hmono q₁) hv]
    rfl
  | some pd =>
  have w₂ := walk_extend w₁ n₁
  have q₂ : [pml4Index virt, pdptIndex virt] ++ [pdIndex virt] <+: dirPath virt :=
    List.prefix_refl _
  rw [Option.bind_some, vmmFollow_dir ht hr (by simp) w₂ (hc _ _ q₂ pd w₂)]
  cases n₂ : next (mem pd (pdIndex virt)) with
  | none =>
    have hv : ¬valid (mem pd (pdIndex virt)) := fun h => hc _ _ q₂ pd w₂ h n₂
    rw [translate_of_hole w₂ (hmono q₂) hv]
    rfl
  | some pt =>
  have w₃ : walk next mem root (dirPath virt) = some pt := walk_extend w₂ n₂
  rw [translate_of_leaf w₃, Option.bind_some]
  by_cases hv : valid (mem pt (ptIndex virt))
  · obtain ⟨hh, hne⟩ := ht.pages root hr _ (ptIndex virt) pt (dirPath_length virt) w₃ hv
    have hp : p2v (mem pt (ptIndex virt) &&& VMM_PHYS_MASK) ≠ 0 := by
      rw [ne_eq, p2v_eq_zero_iff]
      exact hne
    rw [vmmFollow_of_valid hv hh, if_pos hv, Option.bind_some, if_pos hp, v2p_p2v]
  · unfold vmmFollow
    rw [if_neg hv, if_neg hv]
    rfl

/-! ## Unmapping -/

theorem vmmEditPage_cases (edit : BitVec 64 → BitVec 64) (mem : Mem) (root virt : BitVec 64) :
    (vmmEditPage edit mem root virt = mem ∧ ∀ t, walk next mem root (dirPath virt) = some t →
      ¬valid (mem t (ptIndex virt))) ∨
      ∃ t, walk next mem root (dirPath virt) = some t ∧ valid (mem t (ptIndex virt)) ∧
        vmmEditPage edit mem root virt =
          write mem t (ptIndex virt) (edit (mem t (ptIndex virt))) := by
  unfold vmmEditPage vmmGetLeaf
  cases hw : walk next mem root (dirPath virt) with
  | none => exact Or.inl ⟨rfl, fun t h => absurd h (by simp)⟩
  | some t =>
    dsimp only [Option.map_some]
    by_cases hv : valid (mem t (ptIndex virt))
    · rw [if_pos hv]
      exact Or.inr ⟨t, rfl, hv, rfl⟩
    · rw [if_neg hv]
      refine Or.inl ⟨rfl, ?_⟩
      intro u hu
      rw [← Option.some.inj hu]
      exact hv

/-- What unmapping pages of the range keeps, beside what is meant: the tables stay where they
are, and no page gets another frame. -/
structure Cleared (roots : List (BitVec 64)) (mem : Mem) (root : BitVec 64 → BitVec 64) (n : ℕ)
    (virt : BitVec 64) (mem' : Mem) : Prop where
  tables : Tables roots mem'
  walks : ∀ r ∈ roots, ∀ v, walk next mem' r (dirPath v) = walk next mem r (dirPath v)
  mono : ∀ r ∈ roots, ∀ v, translate mem' r v = translate mem r v ∨ translate mem' r v = none
  right : UnmapRight roots mem root n virt mem'

theorem vmmEditPage_cleared (ht : Tables roots mem) {edit : BitVec 64 → BitVec 64}
    (hedit : ∀ d, ¬valid (edit d)) {root : BitVec 64 → BitVec 64} (hr : root virt ∈ roots) :
    Cleared roots mem root 1 virt (vmmEditPage edit mem (root virt) virt) := by
  have hzero : virt + BitVec.ofNat 64 0 * PAGE_SIZE = virt := by
    rw [show BitVec.ofNat 64 0 * PAGE_SIZE = 0 by decide]
    simp
  obtain ⟨he, hn⟩ | ⟨t, hw, _, he⟩ := vmmEditPage_cases edit mem (root virt) virt
  · rw [he]
    refine ⟨ht, fun _ _ _ => rfl, fun _ _ _ => Or.inl rfl, ?_, fun _ _ _ _ => rfl,
      fun _ _ _ _ => rfl⟩
    intro k hk v hv hwalk
    obtain rfl : k = 0 := by omega
    rw [hzero] at hv hwalk ⊢
    obtain ⟨t, hw⟩ := Option.ne_none_iff_exists'.mp hwalk
    obtain ⟨hd, hi⟩ := pagePath_inj hv
    rw [translate_of_leaf hw, hi, if_neg (hn t (hd ▸ hw))]
  · rw [he]
    have hnv := hedit (mem t (ptIndex virt))
    have htr : ∀ r ∈ roots, ∀ v,
        translate (write mem t (ptIndex virt) (edit (mem t (ptIndex virt)))) r v =
          if pagePath v = pagePath virt ∧ walk next mem r (dirPath virt) = some t then none
          else translate mem r v := by
      intro r hr' v
      rw [ht.translate_write hr hw hr', if_neg hnv]
    refine ⟨ht.write_page hr hw fun h => absurd h hnv, ?_, ?_, ?_, ?_, ?_⟩
    · intro r hr' v
      exact ht.forest.walk_write_last hr rfl hw hr' (by simp)
    · intro r hr' v
      rw [htr r hr' v]
      split
      · exact Or.inr rfl
      · exact Or.inl rfl
    · intro k hk v hv _
      obtain rfl : k = 0 := by omega
      rw [hzero] at hv ⊢
      rw [htr _ hr v, if_pos ⟨hv, hw⟩]
    · intro r hr' v hblock
      rw [htr r hr' v, if_neg]
      intro ⟨hv, hwr⟩
      rw [← (pagePath_inj hv).1, hblock] at hwr
      exact absurd hwr (by simp)
    · intro r hr' v hv
      have h0 := hv 0 (by decide)
      rw [hzero] at h0
      rw [htr r hr' v, if_neg fun hc => h0 hc.1]

theorem range_zero (virt : BitVec 64) : virt + BitVec.ofNat 64 0 * PAGE_SIZE = virt := by
  rw [show BitVec.ofNat 64 0 * PAGE_SIZE = 0 by decide]
  simp

theorem range_succ (virt : BitVec 64) (k : ℕ) :
    virt + BitVec.ofNat 64 (k + 1) * PAGE_SIZE =
      virt + PAGE_SIZE + BitVec.ofNat 64 k * PAGE_SIZE := by
  have h : BitVec.ofNat 64 (k + 1) = BitVec.ofNat 64 k + 1 := BitVec.ofNat_add k 1
  have h1 : 1 * PAGE_SIZE = PAGE_SIZE := by decide
  rw [h, BitVec.add_mul, h1, BitVec.add_comm (BitVec.ofNat 64 k * PAGE_SIZE), BitVec.add_assoc]

theorem Cleared.cons {root : BitVec 64 → BitVec 64} (hroot : ∀ v, root v ∈ roots) {n : ℕ}
    {m₁ : Mem} (h : Cleared roots mem root 1 virt m₁)
    (h' : Cleared roots m₁ root n (virt + PAGE_SIZE) mem') :
    Cleared roots mem root (n + 1) virt mem' where
  tables := h'.tables
  walks := by
    intro r hr v
    rw [h'.walks r hr, h.walks r hr]
  mono := by
    intro r hr v
    apply (h'.mono r hr v).elim _ Or.inr
    intro he
    rw [he]
    exact h.mono r hr v
  right := by
    constructor
    · intro k hk v hv hw
      cases k with
      | zero =>
        rw [range_zero] at hv hw ⊢
        have h0 := h.right.inside 0 (by decide) v
        rw [range_zero] at h0
        exact (h'.mono _ (hroot _) v).elim (fun he => he.trans (h0 hv hw)) id
      | succ k =>
        rw [range_succ] at hv hw ⊢
        rw [← h.walks _ (hroot _)] at hw
        exact h'.right.inside k (by omega) v hv hw
    · intro r hr v hw
      rw [h'.right.block r hr v (by rw [h.walks r hr, hw]), h.right.block r hr v hw]
    · intro r hr v hv
      rw [h'.right.outside r hr v, h.right.outside r hr v]
      · intro k hk
        exact hv k (by omega)
      · intro k hk
        rw [← range_succ]
        exact hv (k + 1) (by omega)

theorem vmmEditPages_cleared (ht : Tables roots mem) {edit : BitVec 64 → BitVec 64}
    (hedit : ∀ d, ¬valid (edit d)) {root : BitVec 64 → BitVec 64} (hroot : ∀ v, root v ∈ roots)
    (n : ℕ) (virt : BitVec 64) :
    Cleared roots mem root n virt (vmmEditPages edit root n virt mem) := by
  induction n generalizing mem virt with
  | zero =>
    refine ⟨ht, fun _ _ _ => rfl, fun _ _ _ => Or.inl rfl, ?_, fun _ _ _ _ => rfl,
      fun _ _ _ _ => rfl⟩
    intro k hk
    exact absurd hk (Nat.not_lt_zero k)
  | succ n ih =>
    have h := vmmEditPage_cleared ht hedit (hroot virt)
    exact h.cons hroot (ih h.tables (virt + PAGE_SIZE))

theorem not_valid_unmapEntry (d : BitVec 64) : ¬valid (unmapEntry d) := by
  have h : unmapEntry d &&& PTE_VALID = 0 := by
    unfold unmapEntry
    rw [BitVec.and_assoc, show ~~~(VMM_PHYS_MASK ||| PTE_VALID) &&& PTE_VALID = 0 by decide]
    simp
  unfold valid
  rw [h]
  decide

theorem setAttributes_and (bits d k : BitVec 64)
    (hk : (VMM_PHYS_MASK ||| PTE_VALID ||| PTE_TABLE) &&& k = k) :
    setAttributes bits d &&& k = d &&& k := by
  have hz : ~~~(VMM_PHYS_MASK ||| PTE_VALID ||| PTE_TABLE) &&& k = 0 := by
    rw [← hk, ← BitVec.and_assoc,
      show ~~~(VMM_PHYS_MASK ||| PTE_VALID ||| PTE_TABLE) &&&
        (VMM_PHYS_MASK ||| PTE_VALID ||| PTE_TABLE) = 0 by decide]
    simp
  unfold setAttributes
  dsimp only
  rw [BitVec.and_or_distrib_right, BitVec.and_assoc, BitVec.and_assoc, hz, hk]
  simp

theorem setAttributes_plain {bits d : BitVec 64} (hb : bits &&& HIGH_BITS = 0) (h : Plain d) :
    Plain (setAttributes bits d) := by
  constructor
  · have hd : VMM_PHYS_MASK ||| PTE_VALID ||| PTE_TABLE =
        (VMM_PHYS_MASK ||| PTE_VALID ||| PTE_TABLE) &&& ~~~HIGH_BITS := by decide
    have hz : ~~~HIGH_BITS &&& HIGH_BITS = 0 := by decide
    have hn : ~~~(VMM_PHYS_MASK ||| PTE_VALID ||| PTE_TABLE) &&& HIGH_BITS = HIGH_BITS := by
      decide
    unfold setAttributes
    dsimp only
    rw [BitVec.and_or_distrib_right, hd, BitVec.and_assoc, BitVec.and_assoc, hz, ← hd,
      BitVec.and_assoc, hn, hb]
    simp
  · rw [setAttributes_and bits d _ (by decide)]
    exact h.2

/-- A change of attributes changes no page. -/
theorem attributes_same (ht : Tables roots mem) (hr : root ∈ roots) {bits : BitVec 64}
    (hb : bits &&& HIGH_BITS = 0) (virt : BitVec 64) :
    Tables roots (vmmEditPage (setAttributes bits) mem root virt) ∧
      ∀ r ∈ roots, ∀ v,
        translate (vmmEditPage (setAttributes bits) mem root virt) r v = translate mem r v := by
  obtain ⟨he, _⟩ | ⟨t, hw, hv, he⟩ := vmmEditPage_cases (setAttributes bits) mem root virt
  · rw [he]
    exact ⟨ht, fun _ _ _ => rfl⟩
  · have hp := ht.pages root hr _ (ptIndex virt) t (dirPath_length virt) hw hv
    have hv' : valid (setAttributes bits (mem t (ptIndex virt))) := by
      unfold valid at hv ⊢
      rw [setAttributes_and bits _ _ (by decide)]
      exact hv
    rw [he]
    refine ⟨ht.write_page hr hw fun _ => setAttributes_plain hb hp, ?_⟩
    intro r hr' v
    rw [ht.translate_write hr hw hr', if_pos hv', setAttributes_and bits _ _ (by decide)]
    split
    · next hc =>
      obtain ⟨hd, hi⟩ := pagePath_inj hc.1
      rw [translate_of_leaf (hd ▸ hc.2), hi, if_pos hv]
    · rfl

/-! ## Runs -/

/-- The tables of all address spaces, two of which are current. -/
structure VmmInv (roots : List (BitVec 64)) (s : State) : Prop where
  tables : Tables roots s.mem
  user : s.ttbr0 &&& VMM_PHYS_MASK ∈ roots
  kernel : s.ttbr1 &&& VMM_PHYS_MASK ∈ roots

theorem VmmInv.current {s : State} (h : VmmInv roots s) (virt : BitVec 64) :
    vmmCurrentRoot s virt ∈ roots := by
  unfold vmmCurrentRoot
  split
  · exact h.kernel
  · exact h.user

/-- The allocator gives frames that are in no use as tables, frames are below `2^48`, attributes
are below the frame, and `AuMapPageEx` is not called for an address under a block. -/
def Ok (roots : List (BitVec 64)) (s : State) : Act → Prop
  | .mapEx root phys virt _ pages =>
    root ∈ roots ∧ Frame phys ∧ SparePages roots s.mem pages ∧ Clear s.mem root virt
  | .map phys _ _ pages => Frame phys ∧ SparePages roots s.mem pages
  | .freeEx root _ _ => root ∈ roots
  | .free _ _ => True
  | .unmap _ _ => True
  | .attributes _ bits => bits &&& HIGH_BITS = 0
  | .switch root => root &&& VMM_PHYS_MASK ∈ roots

/-- What a call is meant to do to the map from pages to frames. -/
def StepRight (roots : List (BitVec 64)) (s : State) : Act → Prop
  | .mapEx root phys virt attrib pages =>
    MapRight roots s.mem root virt phys (auMapPageEx s.mem root phys virt attrib pages)
  | .map phys virt attrib pages =>
    MapRight roots s.mem (vmmCurrentRoot s virt) virt phys
      (auMapPage s.mem (vmmCurrentRoot s virt) phys virt attrib pages)
  | .freeEx root virt size =>
    UnmapRight roots s.mem (fun _ => root) (numPages size) virt
      (step s (.freeEx root virt size)).mem
  | .free virt size =>
    UnmapRight roots s.mem (fun _ => vmmCurrentRoot s virt) (numPages size) virt
      (step s (.free virt size)).mem
  | .unmap addr len =>
    UnmapRight roots s.mem (vmmCurrentRoot s) (pageAlign len / PAGE_SIZE).toNat addr
      (step s (.unmap addr len)).mem
  | .attributes virt bits => ∀ r ∈ roots, ∀ v,
    translate (step s (.attributes virt bits)).mem r v = translate s.mem r v
  | .switch root => ∀ r ∈ roots, ∀ v,
    translate (step s (.switch root)).mem r v = translate s.mem r v

/-- Every call in order keeps the tables and does what is meant. -/
theorem VmmInv.step {s : State} (hi : VmmInv roots s) (act : Act) (h : Ok roots s act) :
    VmmInv roots (step s act) ∧ StepRight roots s act := by
  cases act with
  | mapEx root phys virt attrib pages =>
    obtain ⟨hr, hp, hs, hc⟩ := h
    have hm := auMapPageEx_maps hi.tables hr hp attrib hs hc
    exact ⟨⟨hm.1, hi.user, hi.kernel⟩, hm.2⟩
  | map phys virt attrib pages =>
    have hm : Maps roots s.mem (vmmCurrentRoot s virt) virt phys _ :=
      auMapPage_maps hi.tables (hi.current virt) h.1 attrib h.2
    exact ⟨⟨hm.1, hi.user, hi.kernel⟩, hm.2⟩
  | freeEx root virt size =>
    have hm := vmmEditPages_cleared hi.tables (fun _ => not_valid_zero) (fun _ => h)
      (numPages size) virt
    exact ⟨⟨hm.tables, hi.user, hi.kernel⟩, hm.right⟩
  | free virt size =>
    have hm := vmmEditPages_cleared hi.tables (fun _ => not_valid_zero) (fun _ => hi.current virt)
      (numPages size) virt
    exact ⟨⟨hm.tables, hi.user, hi.kernel⟩, hm.right⟩
  | unmap addr len =>
    have hm := vmmEditPages_cleared hi.tables not_valid_unmapEntry hi.current
      (pageAlign len / PAGE_SIZE).toNat addr
    exact ⟨⟨hm.tables, hi.user, hi.kernel⟩, hm.right⟩
  | attributes virt bits =>
    have hm := attributes_same hi.tables (hi.current virt) h virt
    exact ⟨⟨hm.1, hi.user, hi.kernel⟩, hm.2⟩
  | switch root => exact ⟨⟨hi.tables, h, hi.kernel⟩, fun _ _ _ => rfl⟩

/-- In every run of such calls the tables are a map from pages to frames: each further call does
what is meant, and the lookup finds the frame of every page that no block maps. -/
theorem exec_pageTables (roots : List (BitVec 64)) (s : State) (hi : VmmInv roots s)
    (acts : List Act) (h : Respects (Ok roots) step s acts) :
    (∀ r ∈ roots, ∀ virt, Clear (run step s acts).mem r virt →
      auGetPhysicalAddressEx (run step s acts).mem r virt =
        (translate (run step s acts).mem r virt).getD 0) ∧
      ∀ act, Ok roots (run step s acts) act → StepRight roots (run step s acts) act := by
  have hi : VmmInv roots (run step s acts) :=
    Respects.invariant (I := VmmInv roots) (fun _ act hi ha => (hi.step act ha).1) hi h
  exact ⟨fun r hr virt hc => auGetPhysicalAddressEx_eq hi.tables hr hc,
    fun act ha => (hi.step act ha).2⟩

/-- An address space without any page. -/
def emptyState : State := ⟨fun _ _ => 0, 0x1000, 0x1000⟩

/-- Three frames above `0x1000`. -/
def threePages (k : Fin 3) : BitVec 64 := 0x2000 + 0x1000 * BitVec.ofNat 64 k

theorem walk_empty {f : BitVec 64} (h : walk next (fun _ _ => 0) r p = some f) :
    p = [] ∧ r = f := by
  cases p with
  | nil => exact ⟨rfl, Option.some.inj h⟩
  | cons i p =>
    rw [Radix.walk, next_zero] at h
    exact absurd h (by simp)

theorem tables_empty (root : BitVec 64) : Tables [root] (fun _ _ => 0) := by
  constructor
  · intro r hr r' hr' p q t _ _ hp hq
    rw [(walk_empty hp).1, (walk_empty hq).1]
  · intro r _ p i t _ _ hn
    exact absurd next_zero hn
  · intro r _ i hv
    exact absurd hv not_valid_zero
  · intro r _ p i t _ _ hv
    exact absurd hv not_valid_zero

theorem spare_empty (ha : page &&& VMM_PHYS_MASK = page) (hne : page ≠ root) :
    Spare [root] (fun _ _ => 0) page := by
  refine ⟨ha, ?_⟩
  intro r hr p _ hw
  exact hne ((walk_empty hw).2.symm.trans (List.mem_singleton.mp hr))

theorem emptyState_inv : VmmInv [0x1000] emptyState where
  tables := tables_empty 0x1000
  user := by decide
  kernel := by decide

theorem emptyState_spare : SparePages [0x1000] emptyState.mem threePages where
  spare := by
    intro k _
    have ha : ∀ k, threePages k &&& VMM_PHYS_MASK = threePages k ∧ threePages k ≠ 0x1000 := by
      decide
    exact spare_empty (ha k).1 (ha k).2
  distinct := by decide

/-- The first page of a new address space is mapped, and stays mapped over a switch. -/
theorem exec_pageTables_first :
    StepRight [0x1000] (run step emptyState []) (.mapEx 0x1000 0x55000 0x60001000 0x44 threePages) ∧
      StepRight [0x1000]
        (run step emptyState [.mapEx 0x1000 0x55000 0x60001000 0x44 threePages])
        (.switch 0x1000) := by
  have hc : Clear emptyState.mem 0x1000 0x60001000 := by
    intro p i _ t _ hv
    exact absurd hv not_valid_zero
  have hf : Frame 0x55000 := by decide
  have hok : Ok [0x1000] emptyState (.mapEx 0x1000 0x55000 0x60001000 0x44 threePages) :=
    ⟨by decide, hf, emptyState_spare, hc⟩
  constructor
  · exact (exec_pageTables [0x1000] emptyState emptyState_inv [] trivial).2 _ hok
  · exact (exec_pageTables [0x1000] emptyState emptyState_inv
      [.mapEx 0x1000 0x55000 0x60001000 0x44 threePages] ⟨hok, trivial⟩).2 _
      (show (0x1000 : BitVec 64) ∈ [0x1000] by decide)

/-- A root whose first gigabyte is one block, at the frame zero. -/
def blockMem : Mem := write (write (fun _ _ => 0) 0x1000 0 0x2003) 0x2000 0 0x401

/-- The lookup of a page that must not be executed returns its attribute with the frame. And
`AuMapPageEx` reports success under a block, where it has taken the block for a table. -/
theorem not_exec_pageTables :
    (translate (run step emptyState [.mapEx 0x1000 0x55000 0x60001000 0x44 threePages,
        .attributes 0x60001000 PTE_USER_NOT_EXECUTABLE]).mem 0x1000 0x60001000 = some 0x55000 ∧
      auGetPhysicalAddressEx
        (run step emptyState [.mapEx 0x1000 0x55000 0x60001000 0x44 threePages,
          .attributes 0x60001000 PTE_USER_NOT_EXECUTABLE]).mem 0x1000 0x60001000 ≠ 0x55000) ∧
      ((auMapPageEx blockMem 0x1000 0x55000 0x201000 0x44 threePages).2 = true ∧
        translate (auMapPageEx blockMem 0x1000 0x55000 0x201000 0x44 threePages).1 0x1000
          0x201000 ≠ some 0x55000) := by
  decide +kernel

end Xeneva.Vmm
