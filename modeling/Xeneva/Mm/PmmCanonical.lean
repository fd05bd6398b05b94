import Xeneva.Mm.PmmInit

/-!
# The free lists are canonical

A split leaves its other halves beside a block that is taken, a release joins buddies as far as it
can, and the first blocks are as large as fits. So no two buddies are ever free apart, and the free
lists are the maximal blocks of the free pages.
-/

namespace Xeneva.Pmm
open Base

variable {L : Layout} {st st' : State} {m : ℕ → List ℕ} {A : Finset ℕ} {s : Machine}
  {h o p x : ℕ}

def freePages (st : State) : Set ℕ := { p | p < st.total_pages ∧ isFree (st.page_desc p).state }

/-- The lists hold each maximal free block once, and nothing else. -/
def Canonical (st : State) : Prop :=
  ∀ o ≤ PMM_MAX_ORDER, (freeBlocks st o).Nodup ∧
    ∀ h, h ∈ freeBlocks st o ↔ Maximal PMM_MAX_ORDER (freePages st) h o

def SameFree (st st' : State) : Prop :=
  ∀ o ≤ PMM_MAX_ORDER, ∀ h, h ∈ freeBlocks st o ↔ h ∈ freeBlocks st' o

/-- The address by which a caller gives back a block. -/
def addr (b : ℕ × ℕ) : UInt64 := UInt64.ofNat (b.1 * PAGE_SIZE)

/-! ## The first blocks -/

/-- A gap ends with its range, or at a reservation. -/
theorem gaps_end {last current : ℕ} {rs : List PmmRange} (hpos : Proper rs) :
    ∀ g ∈ gaps last rs current, g.last = last ∨ covers rs g.last := by
  induction rs generalizing current with
  | nil =>
    intro g hg
    unfold gaps at hg
    split_ifs at hg
    · obtain rfl := List.mem_singleton.mp hg
      exact .inl rfl
    · exact absurd hg List.not_mem_nil
  | cons r rs ih =>
    obtain ⟨hlt, hpos⟩ := List.forall_mem_cons.mp hpos
    have hrest : ∀ c, ∀ g ∈ gaps last rs c, g.last = last ∨ covers (r :: rs) g.last := by
      intro c g hg
      apply (ih hpos g hg).imp_right
      intro hc
      exact covers_cons.mpr (.inr hc)
    intro g hg
    unfold gaps at hg
    split_ifs at hg with h1 h2 h3 h4 h5 h6 h7
    · exact absurd hg List.not_mem_nil
    · exact hrest _ g hg
    · obtain rfl := List.mem_singleton.mp hg
      exact .inl rfl
    all_goals
      rcases List.mem_append.mp hg with hg | hg
      · first
        | exact absurd hg List.not_mem_nil
        | obtain rfl := List.mem_singleton.mp hg
          exact .inr (covers_cons.mpr (.inl (inRange_iff.mpr (by dsimp only; omega))))
      · exact hrest _ g hg

theorem Apart.cases {rs : List PmmRange} (h : Apart rs) {u v : PmmRange} (hu : u ∈ rs)
    (hv : v ∈ rs) (hne : u ≠ v) : u.last < v.first ∨ v.last < u.first := by
  induction rs with
  | nil => exact absurd hu List.not_mem_nil
  | cons r rs ih =>
    obtain ⟨hr, hrs⟩ := List.pairwise_cons.mp h
    rcases List.mem_cons.mp hu with rfl | hu'
    · rcases List.mem_cons.mp hv with rfl | hv'
      · exact absurd rfl hne
      · exact .inl (hr v hv').2
    · rcases List.mem_cons.mp hv with rfl | hv'
      · exact .inr (hr u hu').2
      · exact ih hrs hu' hv'

/-- Neighbouring pages that are handed out are in one gap. -/
theorem PlanOk.same_gap {info : KernelBootInfo} {plan : Plan} (hp : PlanOk info plan)
    {g g' : PmmRange} (hg : g ∈ allGaps plan) (hg' : g' ∈ allGaps plan) (h : inRange g p)
    (h' : inRange g' (p + 1)) : p + 1 < g.last := by
  by_contra hge
  rw [inRange_iff] at h
  have hlast : g.last = p + 1 := by omega
  obtain ⟨u, hu, hgu⟩ := List.mem_flatMap.mp hg
  obtain ⟨⟨v, hv, hpv⟩, hres⟩ := (hp.gaps.1 g' hg').2 _ h'
  rcases gaps_end hp.proper g hgu with he | hc
  · -- the next usable range would start there
    obtain ⟨h1, -, -, -⟩ := (gaps_spec hp.reserved.sorted hp.proper).1 g hgu
    rw [inRange_iff] at hpv
    have hne : u ≠ v := by
      rintro rfl
      omega
    rcases hp.usable.cases hu hv hne with hcase | hcase <;> omega
  · rw [hlast] at hc
    exact hres hc

/-- What is aligned and fits is not larger than what is chosen. -/
theorem le_fitOrder {first k order : ℕ} (hd : 2 ^ k ∣ first) (hk : k ≤ order) :
    k ≤ fitOrder first order := by
  induction order with
  | zero => exact hk
  | succ order ih =>
    unfold fitOrder
    split_ifs with hmod
    · apply ih
      by_contra hlt
      obtain rfl : k = order + 1 := by omega
      exact hmod (Nat.mod_eq_zero_of_dvd hd)
    · exact hk

/-- Of the blocks that the gaps are cut into no two are buddies. -/
theorem PlanOk.noBuddies {info : KernelBootInfo} {plan : Plan} (hp : PlanOk info plan)
    (hi : Inv L st m A ∅) (hnew : ∀ r, ∀ b ∈ m r, ∃ g ∈ allGaps plan, CutFrom g b r) :
    NoBuddies m := by
  -- the first half of two buddies would have been cut larger
  have hhalf : ∀ o, ∀ b ∈ m o, 2 ^ (o + 1) ∣ b → b + 2 ^ o ∉ m o := by
    intro o b hb hd hb'
    obtain ⟨g, hg, hsub, hfit⟩ := hnew o b hb
    obtain ⟨g', hg', hsub', -⟩ := hnew o _ hb'
    have hpos := Nat.two_pow_pos o
    have hlo : b ∈ pages g := hsub (head_mem_block b o)
    -- the gap of the first half goes on to the end of the second
    have hin : ∀ i, i ≤ 2 ^ o → b + 2 ^ o - 1 + i < g.last := by
      intro i hi
      induction i with
      | zero =>
        have hm : b + 2 ^ o - 1 ∈ block b o := mem_block.mpr (by omega)
        have := Finset.mem_Ico.mp (hsub hm)
        omega
      | succ i ih =>
        have hm : b + 2 ^ o + i ∈ block (b + 2 ^ o) o := mem_block.mpr (by omega)
        have hm' := Finset.mem_Ico.mp (hsub' hm)
        have hlt := ih (by omega)
        have hfirst := Finset.mem_Ico.mp hlo
        have hstep := hp.same_gap hg hg' (p := b + 2 ^ o - 1 + i)
          (inRange_iff.mpr (by omega)) (inRange_iff.mpr (by omega))
        omega
    have hend := hin (2 ^ o) (Nat.le_refl _)
    have hlog : o + 1 ≤ floorOrder (g.last - b) := by
      unfold floorOrder
      rw [Nat.le_log2 (by omega), pow_succ]
      omega
    have := le_fitOrder hd hlog
    omega
  intro o _ b hb hbud
  obtain ⟨hd, -⟩ := hi.listed o b hb
  rcases buddy_cases hd with ⟨he, hd'⟩ | ⟨he, hd'⟩
  · rw [he] at hbud
    exact hhalf o b hb hd' hbud
  · rw [he] at hb
    exact hhalf o _ hbud hd' hb

theorem Inv.freeBlocks_eq (hi : Inv L st m A ∅) (o : ℕ) : freeBlocks st o = m o := by
  unfold freeBlocks
  exact (hi.linked o).walk_eq (hi.length_le o)

theorem Inv.mem_freePages (hi : Inv L st m A ∅) : p ∈ freePages st ↔ p ∈ L.pool \ A := by
  rw [Finset.mem_sdiff]
  constructor
  · intro hp
    have hfree : isFree (st.page_desc p).state = true := hp.2
    constructor
    · by_contra hn
      rw [hi.outside p hn, L.base_free] at hfree
      exact Bool.false_ne_true hfree
    · intro hA
      have halloc := hi.isAlloc_of_mem hA
      cases hs : (st.page_desc p).state <;> simp [hs, isFree, isAlloc] at hfree halloc
  · intro hp
    obtain ⟨hm, hb⟩ := hi.free p hp.1 (Finset.notMem_empty p) hp.2
    refine ⟨?_, hi.isFree_listed hm hb⟩
    rw [hi.total]
    exact L.pool_lt p hp.1

theorem Inv.tiling (hi : Inv L st m A ∅) (hn : NoBuddies m)
    (hhigh : ∀ r, PMM_MAX_ORDER < r → m r = []) :
    Tiling PMM_MAX_ORDER (freePages st) fun h o => h ∈ m o where
  le := by
    intro h o hm
    by_contra hlt
    rw [hhigh o (Nat.not_le.mp hlt)] at hm
    exact List.not_mem_nil hm
  dvd hm := (hi.listed _ _ hm).1
  sub hm p hp := hi.mem_freePages.mpr (hi.free_block_sub hm hp)
  apart := by
    intro h o h' o' p hm hm' hp hp'
    obtain ⟨h1, h2⟩ := hi.listed_eq hm hp
    obtain ⟨h3, h4⟩ := hi.listed_eq hm' hp'
    exact ⟨h1.symm.trans h3, h2.symm.trans h4⟩
  cover := by
    intro p hp
    obtain ⟨h1, h2⟩ := Finset.mem_sdiff.mp (hi.mem_freePages.mp hp)
    obtain ⟨hm, hb⟩ := hi.free p h1 (Finset.notMem_empty p) h2
    exact ⟨_, _, hm, hb⟩
  buddies ho hm := hn _ ho _ hm

/-- The manager is in order, and no two free buddies are apart. -/
structure CanonInv (L : Layout) (m : ℕ → List ℕ) (A : Finset ℕ) (s : Machine) : Prop
    extends MachineInv L m A s where
  buddies : NoBuddies m

theorem CanonInv.canonical (hi : CanonInv L m A s) : Canonical s.pmm := by
  intro o _
  rw [hi.blocks.freeBlocks_eq]
  exact ⟨hi.blocks.nodup o, fun h => (hi.blocks.tiling hi.buddies hi.high).iff_maximal⟩

theorem CanonInv.step (hi : CanonInv L m A s) (a : Act) : ∃ m' A', CanonInv L m' A' (step s a) := by
  obtain ⟨m', A', hi', hm, -⟩ := hi.toHeldInv.step a
  exact ⟨m', A', ⟨hi', hm.high.high hi.high⟩, hm.buddies hi.buddies⟩

theorem CanonInv.run (hi : CanonInv L m A s) (as : List Act) :
    ∃ m' A', CanonInv L m' A' (Base.run Pmm.step s as) :=
  run_invariant (I := fun s => ∃ m A, CanonInv L m A s)
    (fun _ a ⟨_, _, hi⟩ => hi.step a) as ⟨m, A, hi⟩

theorem auPmmngrInitialize_canon {bleed : Bool} {info : KernelBootInfo}
    (hok : auPmmngrInitialize bleed info = .ok st) (hn : NoHugeRun info) :
    ∃ plan, ∃ hp : PlanOk info plan, ∃ m, planMemory info = .ok plan ∧
      CanonInv (planLayout hp) m ∅ (boot st) := by
  obtain ⟨plan, hp, m, hplan, hi, hnew, -⟩ := auPmmngrInitialize_held hok
  exact ⟨plan, hp, m, hplan, ⟨hi, hn.high hplan hi.blocks hnew⟩, hp.noBuddies hi.blocks hnew⟩

/-! ## What the callers give back -/

theorem planMemory_total {info : KernelBootInfo} {plan : Plan} (h : planMemory info = .ok plan) :
    plan.total_pages ≤ 2 ^ 52 := by
  unfold planMemory at h
  obtain ⟨t₁, -, h⟩ := ok_of_bind h
  dsimp only at h
  split_ifs at h
  · cases h
  obtain ⟨t₂, -, h⟩ := ok_of_bind h
  obtain ⟨t₃, -, h⟩ := ok_of_bind h
  split at h
  · cases h
  obtain ⟨t₄, -, h⟩ := ok_of_bind h
  split_ifs at h
  · cases h
  cases h
  have hlt := (alignUp t₃.highest 4096).toNat_lt
  dsimp only
  rw [UInt64.toNat_shiftRight, show (12 : UInt64).toNat % 64 = 12 from rfl,
    Nat.shiftRight_eq_div_pow]
  omega

/-- The allocated pages are those of the blocks that are held. -/
theorem HeldInv.mem_iff (hi : HeldInv L m A s) : p ∈ A ↔ ∃ b ∈ s.held, p ∈ block b.1 b.2 := by
  constructor
  · intro hp
    obtain ⟨-, -, hb, -⟩ := hi.blocks.alloc p hp
    exact ⟨_, hi.holds p hp, hb⟩
  · intro hp
    obtain ⟨b, hb, hpb⟩ := hp
    exact (hi.held b hb).1 hpb

/-- The free lists are determined by what is held. -/
theorem CanonInv.sameFree {m' : ℕ → List ℕ} {A' : Finset ℕ} {s' : Machine}
    (hi : CanonInv L m A s) (hi' : CanonInv L m' A' s') (hh : ∀ b, b ∈ s.held ↔ b ∈ s'.held) :
    SameFree s.pmm s'.pmm := by
  have hA : A = A' := by
    ext p
    rw [hi.toHeldInv.mem_iff, hi'.toHeldInv.mem_iff]
    simp only [hh]
  have hF : freePages s.pmm = freePages s'.pmm := by
    ext p
    rw [hi.blocks.mem_freePages, hi'.blocks.mem_freePages, hA]
  intro o ho h
  rw [(hi.canonical o ho).2, (hi'.canonical o ho).2, hF]

theorem HeldInv.addr_toNat (hi : HeldInv L m A s) (hL : L.total ≤ 2 ^ 52) {b : ℕ × ℕ}
    (hb : b ∈ s.held) : (addr b).toNat = b.1 * PAGE_SIZE := by
  have hlt := L.pool_lt b.1 (hi.blocks.alloc_sub (hi.head_mem hb))
  unfold addr
  rw [UInt64.toNat_ofNat', Nat.mod_eq_of_lt]
  unfold PAGE_SIZE
  omega

/-- A block goes when its last reference is given back; the other blocks stay. -/
theorem HeldInv.releasePages_held (hi : HeldInv L m A s) (hL : L.total ≤ 2 ^ 52) {b : ℕ × ℕ}
    (hb : b ∈ s.held) :
    (Pmm.step s (.releasePages (addr b))).held =
        (if s.refs b.1 = 1 then s.held.filter (·.1 ≠ b.1) else s.held) ∧
      ∀ x ≠ b.1, (Pmm.step s (.releasePages (addr b))).refs x = s.refs x := by
  obtain ⟨x, o⟩ := b
  obtain ⟨hsub, ha, hrefs⟩ := hi.held _ hb
  dsimp only at hsub ha hrefs ⊢
  have hhead := ha.pages x (head_mem_block x o)
  have haddr := hi.addr_toNat hL hb
  have hgood : ¬badAddress s.pmm (addr (x, o)) := by
    unfold badAddress
    rw [haddr]
    have hv := hi.blocks.valid (hi.blocks.alloc_sub (hi.head_mem hb))
    simp [PAGE_SIZE, Nat.mul_mod_left, hv]
  have hpage : (addr (x, o)).toNat / PAGE_SIZE = x := by
    rw [haddr]
    exact Nat.mul_div_cancel x (by decide)
  have hall : isAllocHead s.pmm x := by
    simp [isAllocHead, hhead.1, hhead.2.2.1]
  unfold Pmm.step
  rw [if_neg (by simp [hi.running])]
  dsimp only [auPmmngrReleasePages]
  rw [if_neg hgood, hpage, hhead.2.1]
  by_cases hone : s.refs x = 1
  · have hcount : ∀ i < 2 ^ o, (s.pmm.page_desc (x + i)).refcount = 1 := by
      intro i hlt
      by_cases ho : o = 0
      · subst ho
        obtain rfl : i = 0 := by omega
        exact hrefs.symm.trans hone
      · exact (ha.pages (x + i) (mem_block.mpr (by omega))).2.2.2.2 ho
    have hd : 2 ^ o ∣ x := by
      have := (hi.blocks.of_isAllocHead hall).2.1
      rwa [hhead.2.1] at this
    rw [if_pos ⟨hall, ha.requested, hcount⟩]
    obtain ⟨st', m', hok, -⟩ := hi.blocks.free_ok hi.stats ha hd hsub (.refl _ s.pmm) rfl
      (fun _ _ => ⟨rfl, rfl⟩) (s.pmm.page_desc x).owner_slot
    rw [hok]
    dsimp only [bind, Except.bind]
    rw [if_pos rfl]
    unfold Machine.giveBack
    dsimp only
    rw [hpage, if_pos hone]
    refine ⟨rfl, ?_⟩
    intro y hy
    exact Function.update_of_ne hy _ _
  · rw [if_neg, if_neg hone]
    · exact ⟨rfl, fun _ _ => rfl⟩
    · intro hc
      exact hone (hrefs.trans (hc.2.2 0 (Nat.two_pow_pos o)))

/-- What is held after some blocks are given back does not depend on their order. -/
theorem CanonInv.releaseAll (hi : CanonInv L m A s) (hL : L.total ≤ 2 ^ 52) {l : List (ℕ × ℕ)}
    (hl : ∀ b ∈ l, b ∈ s.held) (hn : l.Nodup) (c : ℕ × ℕ) :
    c ∈ (Base.run Pmm.step s (l.map fun b => .releasePages (addr b))).held ↔
      c ∈ s.held ∧ ¬(c ∈ l ∧ s.refs c.1 = 1) := by
  induction l generalizing s m A with
  | nil => simp
  | cons b l ih =>
    obtain ⟨hbl, hn⟩ := List.nodup_cons.mp hn
    have hb := hl b List.mem_cons_self
    obtain ⟨hheld, hrefs⟩ := hi.toHeldInv.releasePages_held hL hb
    obtain ⟨m', A', hi'⟩ := hi.step (.releasePages (addr b))
    -- the heads of blocks that are held tell them apart
    have hinj : ∀ d ∈ s.held, d.1 = b.1 → d = b := by
      intro d hd he
      obtain ⟨h1, h2⟩ := hi.toHeldInv.held_eq hd (head_mem_block d.1 d.2)
      obtain ⟨h3, h4⟩ := hi.toHeldInv.held_eq hb (head_mem_block b.1 b.2)
      rw [he] at h1 h2
      exact Prod.ext he (h2.symm.trans h4)
    have hmem : ∀ d, d ∈ (Pmm.step s (.releasePages (addr b))).held ↔
        d ∈ s.held ∧ ¬(d = b ∧ s.refs b.1 = 1) := by
      intro d
      rw [hheld]
      split_ifs with hone
      · rw [List.mem_filter, decide_eq_true_eq]
        apply and_congr_right
        intro hd
        constructor
        · intro hne he
          exact hne (congrArg Prod.fst he.1)
        · intro hne he
          exact hne ⟨hinj d hd he, hone⟩
      · simp [hone]
    have hl' : ∀ d ∈ l, d ∈ (Pmm.step s (.releasePages (addr b))).held := by
      intro d hd
      rw [hmem]
      refine ⟨hl d (List.mem_cons_of_mem b hd), ?_⟩
      rintro ⟨rfl, -⟩
      exact hbl hd
    rw [List.map_cons, run_cons, ih hi' hl' hn, hmem, List.mem_cons]
    by_cases hcb : c = b
    · subst hcb
      simp [hbl]
    · by_cases hc : c ∈ s.held
      · rw [hrefs c.1 fun he => hcb (hinj c hc he)]
        simp [hcb]
      · simp [hc]

/-- A caller has one reference to a block that it was just given. -/
theorem refs_of_alloc {pages alignment : UInt32} {ceiling : UInt64} {type : UInt8} {owner : ℤ}
    {b : ℕ × ℕ} (hr : s.halted = none)
    (hb : (Pmm.step s (.alloc pages alignment ceiling type owner)).held = b :: s.held) :
    (Pmm.step s (.alloc pages alignment ceiling type owner)).refs b.1 = 1 := by
  have hne : s.held ≠ b :: s.held := by
    intro he
    have := congrArg List.length he
    simp at this
  unfold Pmm.step at hb ⊢
  rw [if_neg (by simp [hr])] at hb ⊢
  dsimp only at hb ⊢
  split at hb
  · exact absurd hb hne
  next pmm phys hok =>
    unfold Machine.take at hb ⊢
    split_ifs at hb ⊢ with hphys
    · exact absurd hb hne
    · have hhead := congrArg Prod.fst (List.cons.inj hb).1
      rw [← hhead]
      exact Function.update_self _ _ _

/-- A block that is handed out and given back at once leaves the free blocks as they were. -/
theorem CanonInv.restored (hi : CanonInv L m A s) (hL : L.total ≤ 2 ^ 52)
    {pages alignment : UInt32} {ceiling : UInt64} {type : UInt8} {owner : ℤ} {b : ℕ × ℕ}
    (hb : (Pmm.step s (.alloc pages alignment ceiling type owner)).held = b :: s.held) :
    SameFree (Base.run Pmm.step s
      [.alloc pages alignment ceiling type owner, .releasePages (addr b)]).pmm s.pmm := by
  have hrefs := refs_of_alloc hi.running hb
  obtain ⟨m₁, A₁, hi₁⟩ := hi.step (.alloc pages alignment ceiling type owner)
  obtain ⟨m₂, A₂, hi₂⟩ := hi.run [.alloc pages alignment ceiling type owner, .releasePages (addr b)]
  have hmem : b ∈ (Pmm.step s (.alloc pages alignment ceiling type owner)).held := by
    rw [hb]
    exact List.mem_cons_self
  have hall := hi₁.releaseAll hL (l := [b])
    (fun d hd => by rw [List.mem_singleton.mp hd]; exact hmem) (List.nodup_singleton b)
  have hnodup := hi₁.nodup
  rw [hb] at hnodup
  apply hi₂.sameFree hi
  intro d
  rw [run_cons]
  refine (hall d).trans ?_
  rw [hb, List.mem_cons, List.mem_singleton]
  constructor
  · intro hd
    rcases hd.1 with rfl | hs
    · exact absurd ⟨rfl, hrefs⟩ hd.2
    · exact hs
  · intro hd
    refine ⟨.inr hd, ?_⟩
    rintro ⟨rfl, -⟩
    exact (List.nodup_cons.mp hnodup).1 hd

/-- The free lists are canonical; so what is given back leaves no trace, in whatever order. -/
structure Machine.Traceless (s : Machine) : Prop where
  canonical : Canonical s.pmm
  restored : ∀ pages alignment ceiling type owner b,
    (step s (.alloc pages alignment ceiling type owner)).held = b :: s.held →
    SameFree (run step s [.alloc pages alignment ceiling type owner, .releasePages (addr b)]).pmm
      s.pmm
  order : ∀ l l' : List (ℕ × ℕ), l.Nodup → (∀ b ∈ l, b ∈ s.held) → l.Perm l' →
    SameFree (run step s (l.map fun b => .releasePages (addr b))).pmm
      (run step s (l'.map fun b => .releasePages (addr b))).pmm
  held : ∀ as bs : List Act, (∀ b, b ∈ (run step s as).held ↔ b ∈ (run step s bs).held) →
    SameFree (run step s as).pmm (run step s bs).pmm

theorem CanonInv.traceless (hi : CanonInv L m A s) (hL : L.total ≤ 2 ^ 52) : s.Traceless where
  canonical := hi.canonical
  restored _ _ _ _ _ _ hb := hi.restored hL hb
  order l l' hn hl hp := by
    obtain ⟨m₁, A₁, hi₁⟩ := hi.run (l.map fun b => .releasePages (addr b))
    obtain ⟨m₂, A₂, hi₂⟩ := hi.run (l'.map fun b => .releasePages (addr b))
    apply hi₁.sameFree hi₂
    intro c
    have hl' : ∀ b ∈ l', b ∈ s.held := fun b hb => hl b (hp.mem_iff.mpr hb)
    rw [hi.releaseAll hL hl hn, hi.releaseAll hL hl' (hp.nodup_iff.mp hn), hp.mem_iff]
  held as bs hh := by
    obtain ⟨m₁, A₁, hi₁⟩ := hi.run as
    obtain ⟨m₂, A₂, hi₂⟩ := hi.run bs
    exact hi₁.sameFree hi₂ hh

/-- After every initialisation that finds no huge run of free pages, the free lists are canonical
in every run. -/
theorem exec_canonical (bleed : Bool) (info : KernelBootInfo) (st : State)
    (hok : auPmmngrInitialize bleed info = .ok st) (hn : NoHugeRun info) (as : List Act) :
    (run step (boot st) as).Traceless := by
  obtain ⟨plan, hp, m, hplan, hi⟩ := auPmmngrInitialize_canon hok hn
  obtain ⟨m', A', hi'⟩ := hi.run as
  exact hi'.traceless (planMemory_total hplan)

theorem exec_canonical_small : ∃ st, auPmmngrInitialize true smallMap = .ok st ∧
    (run step (boot st) [.alloc 3 0 0 0 7, .alloc 1 0 0 0 7, .releasePages 0x104000]).Traceless := by
  have hok : (auPmmngrInitialize true smallMap).toBool = true := by decide +kernel
  cases h : auPmmngrInitialize true smallMap with
  | error e =>
    rw [h] at hok
    cases hok
  | ok st => exact ⟨st, rfl, exec_canonical true smallMap st h noHugeRun_smallMap _⟩

/-- In 64 TiB the upper half is one block of order 33, so that none of its blocks is listed. -/
theorem not_exec_canonical : ¬∀ bleed info st, auPmmngrInitialize bleed info = .ok st →
    ∀ as, (run step (boot st) as).Traceless := by
  intro hall
  have hhead : (match auPmmngrInitialize true hugeMap with
      | .ok st => st.free_head 33
      | .error _ => PMM_NO_PAGE) = 2 ^ 33 := by decide +kernel
  cases hst : auPmmngrInitialize true hugeMap with
  | error e =>
    rw [hst] at hhead
    dsimp only at hhead
    exact absurd hhead (by decide)
  | ok st =>
    rw [hst] at hhead
    dsimp only at hhead
    obtain ⟨plan, hp, m, hplan, hi, -⟩ := auPmmngrInitialize_held hst
    have hcanon := (hall true hugeMap st hst []).canonical PMM_MAX_ORDER (Nat.le_refl _)
    have hm : 2 ^ 33 ∈ m 33 := by
      have hlink := hi.blocks.linked 33
      have hpmm : (boot st).pmm.free_head 33 = 2 ^ 33 := hhead
      rw [hpmm] at hlink
      cases hl : m 33 with
      | nil =>
        rw [hl] at hlink
        have hnull : 2 ^ 33 = PMM_NO_PAGE := hlink
        exact absurd hnull (by decide)
      | cons b l =>
        rw [hl] at hlink
        rw [← hlink.1]
        exact List.mem_cons_self
    have hmax : Maximal PMM_MAX_ORDER (freePages (run step (boot st) []).pmm) (2 ^ 33)
        PMM_MAX_ORDER := by
      have hsub : ∀ p ∈ block (2 ^ 33) PMM_MAX_ORDER, p ∈ block (2 ^ 33) 33 := by
        intro p hp
        rw [mem_block] at hp ⊢
        unfold PMM_MAX_ORDER at hp
        omega
      refine ⟨Nat.le_refl _, pow_dvd_pow 2 (by decide), ?_, ?_⟩
      · intro p hp
        exact hi.blocks.mem_freePages.mpr (hi.blocks.free_block_sub hm (hsub p hp))
      · intro h' o' ho' hd' _ hs
        have hle := order_le_of_subset hs
        obtain rfl : o' = PMM_MAX_ORDER := by omega
        exact ⟨(block_inj (pow_dvd_pow 2 (by decide)) hd' (head_mem_block _ _)
          (hs (head_mem_block _ _))).symm, rfl⟩
    have hlisted := (hcanon.2 (2 ^ 33)).mpr hmax
    rw [run_nil, hi.blocks.freeBlocks_eq] at hlisted
    exact absurd (hi.blocks.order_eq hm hlisted) (by decide)

end Xeneva.Pmm
