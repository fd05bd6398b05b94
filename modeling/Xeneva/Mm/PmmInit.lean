import Xeneva.Mm.PmmBoot

/-!
# The manager after its boot

Initialisation cuts the gaps into free blocks. Where no gap holds an aligned run of
`2 ^ 33` pages all of them find a list head in the table, and every run is sound.
-/

namespace Xeneva.Pmm
open Base

variable {L : Layout} {st st' : State} {m : ℕ → List ℕ} {A hole : Finset ℕ} {p : ℕ}

/-! ## Free ranges -/

theorem fitOrder_le (first order : ℕ) : fitOrder first order ≤ order := by
  induction order with
  | zero => exact Nat.le_refl _
  | succ n ih =>
    unfold fitOrder
    split_ifs <;> omega

theorem fitOrder_dvd (first order : ℕ) : 2 ^ fitOrder first order ∣ first := by
  induction order with
  | zero => simp [fitOrder]
  | succ n ih =>
    unfold fitOrder
    split_ifs with h
    · exact ih
    · exact Nat.dvd_of_mod_eq_zero (not_not.mp h)

/-- The block that the loop cuts off lies in the range. -/
theorem fit_block_le {first last : ℕ} (h : first < last) :
    first + 2 ^ fitOrder first (floorOrder (last - first)) ≤ last := by
  have hle := Nat.pow_le_pow_right (n := 2) (by omega)
    (fitOrder_le first (floorOrder (last - first)))
  have hlog : 2 ^ floorOrder (last - first) ≤ last - first := Nat.log2_self_le (by omega)
  omega

theorem markFreeBlock_le {h o : ℕ} (hok : markFreeBlock st h o = .ok st') :
    h + 2 ^ o ≤ st.total_pages ∧ st'.total_pages = st.total_pages := by
  unfold markFreeBlock validPage at hok
  have := Nat.two_pow_pos o
  split_ifs at hok with hc
  · cases hok
  · cases hok
    simp only [decide_eq_true_eq] at hc
    exact ⟨by omega, rfl⟩

theorem listInsert_total {h o : ℕ} (hok : listInsert st h o = .ok st') :
    st'.total_pages = st.total_pages := by
  unfold listInsert at hok
  dsimp only at hok
  split_ifs at hok <;> cases hok <;> rfl

/-- A range that is added without a stop ends before the last page. -/
theorem addFreeRangeLoop_le {last n first : ℕ}
    (hok : addFreeRangeLoop last n st first = .ok st') :
    st'.total_pages = st.total_pages ∧
      (first < last → last - first ≤ n → last ≤ st.total_pages) := by
  induction n generalizing st first with
  | zero =>
    cases hok
    exact ⟨rfl, fun h1 h2 => by omega⟩
  | succ n ih =>
    unfold addFreeRangeLoop at hok
    by_cases hlt : first < last
    · rw [if_pos hlt] at hok
      obtain ⟨s₁, h₁, hok⟩ := ok_of_bind hok
      obtain ⟨s₂, h₂, hok⟩ := ok_of_bind hok
      obtain ⟨hle, ht₁⟩ := markFreeBlock_le h₁
      have ht₂ := listInsert_total h₂
      obtain ⟨ht, hend⟩ := ih hok
      have hpos := Nat.two_pow_pos (fitOrder first (floorOrder (last - first)))
      have hfit := fit_block_le hlt
      refine ⟨by omega, fun _ hn => ?_⟩
      by_cases hmore : first + 2 ^ fitOrder first (floorOrder (last - first)) < last
      · have := hend hmore (by omega)
        omega
      · omega
    · rw [if_neg hlt] at hok
      cases hok
      exact ⟨rfl, fun h1 _ => absurd h1 hlt⟩

theorem addFreeRange_le {G : List PmmRange} (hG : Proper G)
    (hok : G.foldlM addFreeRange st = .ok st') : ∀ g ∈ G, g.last ≤ st.total_pages := by
  induction G generalizing st with
  | nil => exact fun g hg => by cases hg
  | cons g G ih =>
    rw [List.foldlM_cons] at hok
    obtain ⟨s₁, h₁, hok⟩ := ok_of_bind hok
    obtain ⟨hg, hG⟩ := List.forall_mem_cons.mp hG
    obtain ⟨ht, hle⟩ := addFreeRangeLoop_le h₁
    rw [← ht] at hle ⊢
    exact List.forall_mem_cons.mpr ⟨hle hg (Nat.le_refl _), ih hG hok⟩

/-- A block of `m'` that is not one of `m` lies in the range. -/
def NewIn (m m' : ℕ → List ℕ) (R : Finset ℕ) : Prop :=
  ∀ r, ∀ b ∈ m' r, b ∈ m r ∨ block b r ⊆ R

/-- A block of `m'` that is not one of `m` is as large as fits before `last`. -/
def NewFits (m m' : ℕ → List ℕ) (last : ℕ) : Prop :=
  ∀ r, ∀ b ∈ m' r, b ∈ m r ∨ r = fitOrder b (floorOrder (last - b))

/-- The pages of a range leave the hole as free blocks. -/
theorem Inv.addFreeRangeLoop {last n first : ℕ} (hi : Inv L st m ∅ hole)
    (hsub : Finset.Ico first last ⊆ hole) (hn : last - first ≤ n) :
    ∃ st' m', addFreeRangeLoop last n st first = .ok st' ∧
      Inv L st' m' ∅ (hole \ Finset.Ico first last) ∧ Frame L.pool st st' ∧
      NewIn m m' (Finset.Ico first last) ∧ NewFits m m' last := by
  induction n generalizing st m hole first with
  | zero =>
    refine ⟨st, m, rfl, ?_, .refl _ st, fun r b hb => .inl hb, fun r b hb => .inl hb⟩
    rw [Finset.Ico_eq_empty (by omega), Finset.sdiff_empty]
    exact hi
  | succ n ih =>
    unfold Pmm.addFreeRangeLoop
    by_cases hlt : first < last
    · rw [if_pos hlt]
      have hfit := fit_block_le hlt
      have hd := fitOrder_dvd first (floorOrder (last - first))
      generalize ho : fitOrder first (floorOrder (last - first)) = o at hfit hd ⊢
      have hpos := Nat.two_pow_pos o
      have hblock : block first o ⊆ Finset.Ico first last := by
        intro p hp
        rw [mem_block] at hp
        rw [Finset.mem_Ico]
        omega
      have hb := hblock.trans hsub
      obtain ⟨s₁, h₁, hi₁, hf₁, hfr₁⟩ := hi.markFree hb
      obtain ⟨s₂, h₂, hi₂, hfr₂⟩ := hi₁.insert hd hb hf₁
      have hsub₂ : Finset.Ico (first + 2 ^ o) last ⊆ hole \ block first o := by
        intro p hp
        rw [Finset.mem_Ico] at hp
        rw [Finset.mem_sdiff, mem_block]
        exact ⟨hsub (Finset.mem_Ico.mpr (by omega)), by omega⟩
      obtain ⟨s₃, m₃, h₃, hi₃, hfr₃, hnew, hfits⟩ := ih hi₂ hsub₂ (by omega)
      refine ⟨s₃, m₃, ?_, ?_, ?_, fun r b hb₃ => ?_, fun r b hb₃ => ?_⟩
      · simp only [h₁, h₂, h₃, bind, Except.bind]
      · convert hi₃ using 1
        ext p
        simp only [Finset.mem_sdiff, Finset.mem_Ico, mem_block, and_assoc]
        refine and_congr_right fun _ => ?_
        omega
      · exact (hfr₁.mono (hb.trans hi.hole_sub)).trans ((hfr₂.mono (Finset.empty_subset _)).trans hfr₃)
      · rcases hnew r b hb₃ with hb₂ | hb₂
        · by_cases hr : r = o
          · subst hr
            rw [Function.update_self] at hb₂
            rcases List.mem_cons.mp hb₂ with rfl | hb₂
            · exact .inr hblock
            · exact .inl hb₂
          · rw [Function.update_of_ne hr] at hb₂
            exact .inl hb₂
        · refine .inr fun p hp => ?_
          have := Finset.mem_Ico.mp (hb₂ hp)
          rw [Finset.mem_Ico]
          omega
      · rcases hfits r b hb₃ with hb₂ | hb₂
        · by_cases hr : r = o
          · subst hr
            rw [Function.update_self] at hb₂
            rcases List.mem_cons.mp hb₂ with rfl | hb₂
            · exact .inr ho.symm
            · exact .inl hb₂
          · rw [Function.update_of_ne hr] at hb₂
            exact .inl hb₂
        · exact .inr hb₂
    · rw [if_neg hlt]
      refine ⟨st, m, rfl, ?_, .refl _ st, fun r b hb => .inl hb, fun r b hb => .inl hb⟩
      rw [Finset.Ico_eq_empty (by omega), Finset.sdiff_empty]
      exact hi

def pages (g : PmmRange) : Finset ℕ := Finset.Ico g.first g.last

/-- The block is one of those that a range is cut into. -/
def CutFrom (g : PmmRange) (b r : ℕ) : Prop :=
  block b r ⊆ pages g ∧ r = fitOrder b (floorOrder (g.last - b))

/-- All gaps, one after the other. -/
theorem Inv.addFreeRanges {G : List PmmRange} (hi : Inv L st m ∅ hole)
    (hsub : ∀ g ∈ G, pages g ⊆ hole) (hdis : G.Pairwise fun a b => a.last ≤ b.first) :
    ∃ st' m' hole', G.foldlM addFreeRange st = .ok st' ∧ Inv L st' m' ∅ hole' ∧
      hole' ⊆ hole ∧ (∀ g ∈ G, Disjoint (pages g) hole') ∧ Frame L.pool st st' ∧
      ∀ r, ∀ b ∈ m' r, b ∈ m r ∨ ∃ g ∈ G, CutFrom g b r := by
  induction G generalizing st m hole with
  | nil =>
    exact ⟨st, m, hole, rfl, hi, Finset.Subset.refl _, List.forall_mem_nil _, .refl _ st,
      fun r b hb => .inl hb⟩
  | cons g G ih =>
    obtain ⟨hg, hG⟩ := List.forall_mem_cons.mp hsub
    obtain ⟨hfirst, hdis⟩ := List.pairwise_cons.mp hdis
    obtain ⟨s₁, m₁, h₁, hi₁, hfr₁, hnew₁, hfits₁⟩ := hi.addFreeRangeLoop hg (Nat.le_refl _)
    obtain ⟨s₂, m₂, hole₂, h₂, hi₂, hsub₂, hdis₂, hfr₂, hnew₂⟩ := ih hi₁ (fun a ha p hp => by
      have hle := hfirst a ha
      have hpa := Finset.mem_Ico.mp hp
      refine Finset.mem_sdiff.mpr ⟨hG a ha hp, fun hc => ?_⟩
      have := Finset.mem_Ico.mp hc
      omega) hdis
    refine ⟨s₂, m₂, hole₂, ?_, hi₂, hsub₂.trans Finset.sdiff_subset,
      List.forall_mem_cons.mpr ⟨?_, hdis₂⟩, hfr₁.trans hfr₂, fun r b hb => ?_⟩
    · rw [List.foldlM_cons]
      unfold addFreeRange
      simp only [h₁, bind, Except.bind]
      exact h₂
    · exact Finset.disjoint_left.mpr fun p hp hc => (Finset.mem_sdiff.mp (hsub₂ hc)).2 hp
    · rcases hnew₂ r b hb with hb | ⟨a, ha, hb⟩
      · rcases hnew₁ r b hb with hb' | hin
        · exact .inl hb'
        · rcases hfits₁ r b hb with hb' | hfit
          · exact .inl hb'
          · exact .inr ⟨g, List.mem_cons_self, hin, hfit⟩
      · exact .inr ⟨a, List.mem_cons_of_mem g ha, hb⟩

/-! ## Initialisation -/

def allGaps (plan : Plan) : List PmmRange :=
  plan.usable.flatMap fun u => gaps u.last plan.reserved u.first

/-- The ranges are taken in one loop over all gaps. -/
theorem foldlM_allGaps (plan : Plan) (us : List PmmRange) (st : State) :
    us.foldlM (addUsableMinusReservations plan) st =
      (us.flatMap fun u => gaps u.last plan.reserved u.first).foldlM addFreeRange st := by
  induction us generalizing st with
  | nil => rfl
  | cons u us ih =>
    rw [List.foldlM_cons, List.flatMap_cons, List.foldlM_append]
    unfold addUsableMinusReservations
    congr 1
    funext s
    exact ih s

theorem PlanOk.gaps {info : KernelBootInfo} {plan : Plan} (hp : PlanOk info plan) :
    (∀ g ∈ allGaps plan, g.first < g.last ∧
      ∀ p, inRange g p → covers plan.usable p ∧ ¬ covers plan.reserved p) ∧
    (allGaps plan).Pairwise fun a b => a.last ≤ b.first := by
  have hgap : ∀ u : PmmRange, _ := fun u =>
    @gaps_spec u.last u.first _ hp.reserved.sorted hp.proper
  constructor
  · intro g hg
    obtain ⟨u, hu, hg⟩ := List.mem_flatMap.mp hg
    obtain ⟨h1, h2, h3, h4⟩ := (hgap u).1 g hg
    refine ⟨h2, fun p hpg => ⟨⟨u, hu, ?_⟩, h4 p hpg⟩⟩
    rw [inRange_iff] at hpg ⊢
    omega
  · refine List.pairwise_flatMap.mpr ⟨fun u _ => (hgap u).2, ?_⟩
    refine hp.usable.imp fun {u v} huv a ha b hb => ?_
    obtain ⟨-, -, h1, -⟩ := (hgap u).1 a ha
    obtain ⟨h2, -, -, -⟩ := (hgap v).1 b hb
    omega

/-- The pages that the manager hands out, and the states of the others. -/
def planLayout {info : KernelBootInfo} {plan : Plan} (hp : PlanOk info plan) : Layout where
  total := plan.total_pages
  pool := (Finset.range plan.total_pages).filter fun p => ∃ g ∈ allGaps plan, inRange g p
  base := fun p => if plan.usable.any (inRange · p) then .reserved else .unmanaged
  pool_lt := fun _ hp => Finset.mem_range.mp (Finset.mem_filter.mp hp).1
  total_lt := hp.total
  base_free := fun p => by split_ifs <;> rfl
  base_alloc := fun p => by split_ifs <;> rfl

/-- The descriptors before the free ranges are added: all managed pages are in hand. -/
theorem inv_initialPmm {info : KernelBootInfo} {plan : Plan} (hp : PlanOk info plan) :
    Inv (planLayout hp) (initialPmm plan) (fun _ => []) ∅ (planLayout hp).pool where
  total := rfl
  linked _ := rfl
  nodup _ := List.nodup_nil
  listed _ _ hm := by cases hm
  free _ h1 h2 _ := absurd h1 h2
  alloc _ hm := absurd hm (Finset.notMem_empty _)
  alloc_sub := Finset.empty_subset _
  hole_sub := Finset.Subset.refl _
  apart := Finset.disjoint_empty_left _
  outside _ _ := rfl

/-- No aligned run of `2 ^ 33` pages is usable and free of reservations. -/
def NoHugeRun (info : KernelBootInfo) : Prop :=
  ∀ plan, planMemory info = .ok plan → ∀ k, ∃ p ∈ block (k * 2 ^ 33) 33,
    ¬ covers plan.usable p ∨ covers plan.reserved p

/-- The free ranges of a plan become free blocks, of orders in the table unless a run of
pages is huge. -/
theorem PlanOk.addFreeRanges {info : KernelBootInfo} {plan : Plan} (hp : PlanOk info plan)
    (hok : plan.usable.foldlM (addUsableMinusReservations plan) (initialPmm plan) = .ok st) :
    ∃ m, Inv (planLayout hp) st m ∅ ∅ ∧ Epochs st ∧
      (∀ r, ∀ b ∈ m r, ∃ g ∈ allGaps plan, CutFrom g b r) ∧
      st.pmm_owner_table = List.replicate PMM_OWNER_SLOTS {} := by
  rw [foldlM_allGaps] at hok
  obtain ⟨hg, hdis⟩ := hp.gaps
  have hend := addFreeRange_le (fun g hm => (hg g hm).1) hok
  obtain ⟨st', m, hole, hok', hi, hsub, hhole, hfr, hnew⟩ :=
    (inv_initialPmm hp).addFreeRanges (G := allGaps plan) (fun g hm p hpg => by
      have hpg := Finset.mem_Ico.mp hpg
      have hle : g.last ≤ plan.total_pages := hend g hm
      refine Finset.mem_filter.mpr ⟨Finset.mem_range.mpr (by omega), g, hm, ?_⟩
      rw [inRange_iff]
      exact hpg) hdis
  have hst : st = st' := Except.ok.inj (hok.symm.trans hok')
  subst hst
  have hempty : hole = ∅ := by
    rw [Finset.eq_empty_iff_forall_notMem]
    intro p hph
    obtain ⟨-, g, hm, hpg⟩ := Finset.mem_filter.mp (hsub hph)
    exact Finset.disjoint_left.mp (hhole g hm) (Finset.mem_Ico.mpr (inRange_iff.mp hpg)) hph
  rw [hempty] at hi
  refine ⟨m, hi, ⟨?_, fun p _ => ?_⟩, fun r b hb => ?_, hfr.table⟩
  · rw [hfr.validation_epoch]
    exact Nat.two_pow_pos 32
  · rw [hfr.epochs, hfr.validation_epoch]
    exact Nat.le_refl _
  · rcases hnew r b hb with hb | hb
    · cases hb
    · exact hb

/-- A list behind the table means a huge run. -/
theorem NoHugeRun.high {info : KernelBootInfo} {plan : Plan} (hn : NoHugeRun info)
    (hplan : planMemory info = .ok plan) (hi : Inv L st m A hole)
    (hnew : ∀ r, ∀ b ∈ m r, ∃ g ∈ allGaps plan, CutFrom g b r) :
    ∀ r, PMM_MAX_ORDER < r → m r = [] := by
  intro r hr
  rw [List.eq_nil_iff_forall_not_mem]
  intro b hb
  obtain ⟨g, hg, hbg, -⟩ := hnew r b hb
  have hr33 : 33 ≤ r := hr
  have hd : 2 ^ 33 ∣ b := (pow_dvd_pow 2 hr33).trans (hi.listed r b hb).1
  obtain ⟨k, rfl⟩ := hd
  rw [Nat.mul_comm] at hbg
  obtain ⟨p, hpb, hp⟩ := hn plan hplan k
  have hpg : p ∈ pages g := by
    refine hbg ?_
    have := Nat.pow_le_pow_right (n := 2) (by omega) hr33
    rw [mem_block] at hpb ⊢
    omega
  obtain ⟨hu, hres⟩ := ((planMemory_ok hplan).gaps.1 g hg).2 p
    (inRange_iff.mpr (Finset.mem_Ico.mp hpg))
  exact hp.elim (fun h => h hu) hres

/-- The manager as the callers find it. -/
def boot (st : State) : Machine := { pmm := st }

/-- Initialisation makes the plan, holds nothing back for anyone, and charges no one. -/
theorem auPmmngrInitialize_held {bleed : Bool} {info : KernelBootInfo}
    (hok : auPmmngrInitialize bleed info = .ok st) :
    ∃ plan, ∃ hp : PlanOk info plan, ∃ m, planMemory info = .ok plan ∧
      HeldInv (planLayout hp) m ∅ (boot st) ∧
      (∀ r, ∀ b ∈ m r, ∃ g ∈ allGaps plan, CutFrom g b r) ∧
      st.pmm_owner_table = List.replicate PMM_OWNER_SLOTS {} := by
  unfold auPmmngrInitialize at hok
  obtain ⟨plan, hplan, hok⟩ := ok_of_bind hok
  obtain ⟨s, hs, hok⟩ := ok_of_bind hok
  have hp := planMemory_ok hplan
  obtain ⟨m, hi, he, hnew, htable⟩ := hp.addFreeRanges hs
  have hboot : ∀ st', Inv (planLayout hp) st' m ∅ ∅ → Epochs st' →
      st'.pmm_stats = layoutStats (planLayout hp) ∅ →
      HeldInv (planLayout hp) m ∅ (boot st') := fun st' hi' he' hs' =>
    ⟨rfl, hi', he', hs', List.nodup_nil, fun b hb => (by cases hb),
      fun p hm => absurd hm (Finset.notMem_empty p)⟩
  have hi₁ : Inv (planLayout hp) { s with pmm_stats := counted s } m ∅ ∅ :=
    hi.congr rfl rfl (fun _ _ => .of_data rfl) fun _ _ => ⟨rfl, rfl⟩
  have he₁ : Epochs { s with pmm_stats := counted s } := ⟨he.lt, he.le⟩
  refine ⟨plan, hp, m, hplan, ?_⟩
  by_cases hb : bleed = true
  · rw [if_pos hb] at hok
    cases hok
    exact ⟨hboot _ hi₁ he₁ hi.counted, hnew, htable⟩
  · rw [if_neg hb] at hok
    obtain ⟨st', b, hv, -, hi₂, he₂, hs₂, htable₂, -⟩ := hi₁.validate he₁ hi.counted
    rw [hv] at hok
    dsimp only at hok
    split_ifs at hok
    · cases hok
      exact ⟨hboot _ hi₂ he₂ (hs₂.trans hi.counted), hnew, htable₂.trans htable⟩
    · cases hok

/-- Initialisation never finds a fault in its own result. -/
theorem auPmmngrInitialize_ok {bleed : Bool} {info : KernelBootInfo}
    (hok : auPmmngrInitialize bleed info = .ok st) (hn : NoHugeRun info) :
    ∃ plan, ∃ hp : PlanOk info plan, ∃ m, planMemory info = .ok plan ∧
      MachineInv (planLayout hp) m ∅ (boot st) := by
  obtain ⟨plan, hp, m, hplan, hi, hnew, -⟩ := auPmmngrInitialize_held hok
  exact ⟨plan, hp, m, hplan, hi, hn.high hplan hi.blocks hnew⟩

/-! ## Every run -/

theorem MachineInv.mem_freeBlocks {s : Machine} (hi : MachineInv L m A s) {order h : ℕ}
    (hh : h ∈ freeBlocks s.pmm order) : h ∈ m order := by
  unfold freeBlocks at hh
  rwa [(hi.blocks.linked order).walk_eq (hi.blocks.length_le order)] at hh

theorem MachineInv.sound {info : KernelBootInfo} {plan : Plan} (hp : PlanOk info plan)
    {s : Machine} (hi : MachineInv (planLayout hp) m A s) : Sound info plan s where
  running := hi.running
  valid := by
    obtain ⟨st', b, hv, hb, -⟩ := hi.blocks.validate hi.epochs hi.stats
    rw [hv]
    exact hb.mpr hi.high
  apart := by
    refine hi.nodup.pairwise_of_forall_ne fun b hb c hc hbc => ?_
    refine Finset.disjoint_left.mpr fun p hpb hpc => hbc ?_
    obtain ⟨h1, h2⟩ := hi.held_eq hb hpb
    obtain ⟨h3, h4⟩ := hi.held_eq hc hpc
    exact Prod.ext (h1.symm.trans h3) (h2.symm.trans h4)
  free b hb order _ h hh := by
    refine Finset.disjoint_left.mpr fun p hpb hph => ?_
    exact hi.blocks.not_alloc (hi.mem_freeBlocks hh) hph ((hi.held b hb).1 hpb)
  kept b hb p hpb hk := by
    have hpool := hi.blocks.alloc_sub ((hi.held b hb).1 hpb)
    obtain ⟨-, g, hg, hpg⟩ := Finset.mem_filter.mp hpool
    exact ((hp.gaps.1 g hg).2 p hpg).2 (hp.kept p hk)

/-- After every initialisation that finds no huge run of free pages, every run of the
manager is sound. -/
theorem exec_sound (bleed : Bool) (info : KernelBootInfo) (plan : Plan) (st : State)
    (hplan : planMemory info = .ok plan) (hok : auPmmngrInitialize bleed info = .ok st)
    (hn : NoHugeRun info) (as : List Act) : Sound info plan (run step (boot st) as) := by
  obtain ⟨plan', hp, m, hplan', hi⟩ := auPmmngrInitialize_ok hok hn
  have he : plan' = plan := Except.ok.inj (hplan'.symm.trans hplan)
  subst he
  obtain ⟨m', A, hi'⟩ := hi.run as
  exact hi'.sound hp

/-- 64 KiB from the second megabyte on. -/
def smallMap : KernelBootInfo where
  boot := .littleboot (some ⟨[⟨0x100000, 16⟩], 0, 0, 0, 0, 0, 0⟩)
  reserved_mem := []
  physical_direct_map_size := 0

def smallPlan : Plan where
  usable := [⟨256, 272⟩]
  reserved := [⟨0, 260⟩]
  metadata := ⟨256, 260⟩
  total_pages := 272

theorem noHugeRun_smallMap : NoHugeRun smallMap := by
  have hplan : planMemory smallMap = .ok smallPlan := by decide +kernel
  intro plan hp k
  have he : plan = smallPlan := Except.ok.inj (hp.symm.trans hplan)
  refine ⟨k * 2 ^ 33, head_mem_block _ _, .inl ?_⟩
  rw [he]
  rintro ⟨r, hr, hk⟩
  rw [List.mem_singleton.mp hr, inRange_iff] at hk
  dsimp only at hk
  omega

/-- The small map gives a manager that stays sound while blocks come and go. -/
theorem exec_sound_small : ∃ st, auPmmngrInitialize true smallMap = .ok st ∧
    Sound smallMap smallPlan (run step (boot st)
      [.alloc 3 0 0 0 7, .alloc 1 0 0 0 7, .retainPage 0x108000, .releasePage 0x108000,
        .releasePages 0x104000]) := by
  have hplan : planMemory smallMap = .ok smallPlan := by decide +kernel
  have hok : (auPmmngrInitialize true smallMap).toBool = true := by decide +kernel
  cases h : auPmmngrInitialize true smallMap with
  | error e =>
    rw [h] at hok
    cases hok
  | ok st => exact ⟨st, rfl, exec_sound true smallMap smallPlan st hplan h noHugeRun_smallMap _⟩

/-- A successful validation sees no list head behind the table. -/
theorem free_head_of_validate {info : KernelBootInfo}
    (hok : auPmmngrInitialize true info = .ok st) (hv : (auPmmngrValidate st).2 = true) {r : ℕ}
    (hr : PMM_MAX_ORDER < r) : st.free_head r = PMM_NO_PAGE := by
  unfold auPmmngrInitialize at hok
  obtain ⟨plan, hplan, hok⟩ := ok_of_bind hok
  obtain ⟨s, hs, hok⟩ := ok_of_bind hok
  obtain ⟨m, hi, he, -⟩ := (planMemory_ok hplan).addFreeRanges hs
  have hi₁ : Inv _ { s with pmm_stats := counted s } m ∅ ∅ :=
    hi.congr rfl rfl (fun _ _ => .of_data rfl) fun _ _ => ⟨rfl, rfl⟩
  rw [if_pos rfl] at hok
  cases hok
  obtain ⟨st', b, hval, hb, -⟩ := hi₁.validate ⟨he.lt, he.le⟩ hi.counted
  rw [hval] at hv
  have hl := hi₁.linked r
  rw [hb.mp hv r hr] at hl
  exact hl

/-- 64 TiB from address 0 on. -/
def hugeMap : KernelBootInfo where
  boot := .littleboot (some ⟨[⟨0, 2 ^ 34⟩], 0, 0, 0, 0, 0, 0⟩)
  reserved_mem := []
  physical_direct_map_size := 0

/-- The second half of 64 TiB is one block whose list head lies behind the table. -/
theorem not_exec_sound : ¬ ∀ bleed info plan st, planMemory info = .ok plan →
    auPmmngrInitialize bleed info = .ok st → ∀ as, Sound info plan (run step (boot st) as) := by
  intro hall
  have hhead : (match auPmmngrInitialize true hugeMap with
      | .ok st => st.free_head 33
      | .error _ => PMM_NO_PAGE) = 2 ^ 33 := by decide +kernel
  cases hst : auPmmngrInitialize true hugeMap with
  | error e =>
    rw [hst] at hhead
    dsimp only at hhead
    exact absurd hhead (by decide)
  | ok st =>
    obtain ⟨plan, hplan, -⟩ := ok_of_bind hst
    rw [hst] at hhead
    dsimp only at hhead
    have hsound := hall true hugeMap plan st hplan hst []
    rw [free_head_of_validate hst hsound.valid (show PMM_MAX_ORDER < 33 by decide)] at hhead
    exact absurd hhead (by decide)

end Xeneva.Pmm
