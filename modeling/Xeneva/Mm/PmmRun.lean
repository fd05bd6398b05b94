import Xeneva.Mm.PmmValidate

/-!
# Runs of the memory manager

Each public function keeps the blocks in order and the callers' view of them right.
-/

namespace Xeneva.Pmm
open Base

variable {L : Layout} {st st' : State} {m : ℕ → List ℕ} {A hole T : Finset ℕ} {h o p x : ℕ}

theorem State.setDesc_self (st : State) (x : ℕ) (d : PmmPageDesc) :
    (st.setDesc x d).page_desc x = d := Function.update_self ..

theorem State.setDesc_ne (st : State) (d : PmmPageDesc) (hp : p ≠ x) :
    (st.setDesc x d).page_desc p = st.page_desc p := Function.update_of_ne hp ..

/-- A write to the descriptor of a block's head. -/
theorem Frame.setDesc (o : ℕ) {d : PmmPageDesc}
    (hd : d.validation_epoch = (st.page_desc x).validation_epoch) :
    Frame (block x o) st (st.setDesc x d) where
  data p hp := by
    have hne : p ≠ x := fun he => hp (he ▸ head_mem_block x o)
    rw [State.setDesc_ne _ _ hne]
  epochs p := by
    by_cases hp : p = x
    · rw [hp, State.setDesc_self, hd]
    · rw [State.setDesc_ne _ _ hp]
  total_pages := rfl
  pmm_stats := rfl
  validation_epoch := rfl
  table := rfl

/-! ## The public functions -/

/-- What a function leaves alone: the descriptors of the pages `A` up to their links, and
the marks. -/
structure Kept (A : Finset ℕ) (st st' : State) : Prop where
  data : ∀ p ∈ A, (st'.page_desc p).data = (st.page_desc p).data
  epochs : ∀ p, (st'.page_desc p).validation_epoch = (st.page_desc p).validation_epoch
  total_pages : st'.total_pages = st.total_pages
  validation_epoch : st'.validation_epoch = st.validation_epoch

theorem Frame.kept (hf : Frame T st st') (hd : Disjoint A T) : Kept A st st' :=
  ⟨fun p hp => hf.data p (Finset.disjoint_left.mp hd hp), hf.epochs, hf.total_pages,
    hf.validation_epoch⟩

theorem Kept.epochs_of (hk : Kept A st st') (he : Epochs st) : Epochs st' where
  lt := by
    rw [hk.validation_epoch]
    exact he.lt
  le p hp := by
    rw [hk.epochs, hk.validation_epoch]
    rw [hk.total_pages] at hp
    exact he.le p hp

theorem layoutStats_union (hb : block x o ⊆ L.pool \ A) :
    layoutStats L (A ∪ block x o) = { layoutStats L A with
      free_pages := (layoutStats L A).free_pages - 2 ^ o
      allocated_pages := (layoutStats L A).allocated_pages + 2 ^ o } := by
  have hdis : Disjoint A (block x o) := by
    rw [Finset.disjoint_left]
    intro p hp hpb
    exact (Finset.mem_sdiff.mp (hb hpb)).2 hp
  simp only [layoutStats, AuPmmStats.mk.injEq, true_and, and_true]
  refine ⟨?_, by rw [Finset.card_union_of_disjoint hdis, card_block]⟩
  have hsplit : L.pool \ (A ∪ block x o) = (L.pool \ A) \ block x o := by
    ext p
    simp only [Finset.mem_sdiff, Finset.mem_union, not_or, and_assoc]
  rw [hsplit, Finset.card_sdiff_of_subset hb, card_block]

theorem layoutStats_sdiff (hA : A ⊆ L.pool) (hb : block x o ⊆ A) :
    layoutStats L (A \ block x o) = { layoutStats L A with
      free_pages := (layoutStats L A).free_pages + 2 ^ o
      allocated_pages := (layoutStats L A).allocated_pages - 2 ^ o } := by
  have hout : block x o ⊆ L.pool \ (A \ block x o) := fun p hp =>
    Finset.mem_sdiff.mpr ⟨hA (hb hp), fun hc => (Finset.mem_sdiff.mp hc).2 hp⟩
  have hback := layoutStats_union hout
  have hle : 2 ^ o ≤ (L.pool \ (A \ block x o)).card := by
    rw [← card_block x o]
    exact Finset.card_le_card hout
  rw [Finset.sdiff_union_of_subset hb] at hback
  rw [hback]
  simp only [layoutStats, AuPmmStats.mk.injEq, true_and, and_true]
  omega

theorem orderLoop_le (pages n order : ℕ) : orderLoop pages n order ≤ order + n := by
  induction n generalizing order with
  | zero => exact Nat.le_refl _
  | succ n ih =>
    unfold orderLoop
    split_ifs
    · have := ih (order + 1)
      omega
    · omega

theorem orderForPages_le (pages : ℕ) : orderForPages pages ≤ PMM_MAX_ORDER := by
  have := orderLoop_le pages PMM_MAX_ORDER 0
  unfold orderForPages
  omega

/-- An allocation finds nothing, or hands out an aligned block of free pages. -/
theorem Inv.alloc_ok (hi : Inv L st m A ∅) (hs : st.pmm_stats = layoutStats L A)
    (pages alignment : UInt32) (ceiling : UInt64) (type : UInt8) (owner : ℤ) :
    ∃ st' phys, auPmmngrAllocPagesForOwner st pages alignment ceiling type owner = .ok (st', phys) ∧
      ((phys = PMM_INVALID_PHYS ∧ st' = st) ∨
        ∃ x m', phys = x * PAGE_SIZE ∧
          block x (orderForPages pages.toNat) ⊆ L.pool \ A ∧
          Inv L st' m' (A ∪ block x (orderForPages pages.toNat)) ∅ ∧ Relists m m' ∧
          AllocAt st' x (orderForPages pages.toNat) ∧ (st'.page_desc x).refcount = 1 ∧
          Kept A st st' ∧
          st'.pmm_stats = layoutStats L (A ∪ block x (orderForPages pages.toNat)) ∧
          (st'.page_desc x).owner_slot = (pmmOwnerSlot st.pmm_owner_table owner).2 ∧
          st'.pmm_owner_table = pmmOwnerAdd (pmmOwnerSlot st.pmm_owner_table owner).1
            (pmmOwnerSlot st.pmm_owner_table owner).2 (2 ^ orderForPages pages.toNat)) := by
  unfold auPmmngrAllocPagesForOwner
  by_cases h0 : pages = 0
  · rw [if_pos h0]
    exact ⟨st, _, rfl, .inl ⟨rfl, rfl⟩⟩
  rw [if_neg h0]
  dsimp only
  generalize (if alignment = 0 then 1 else alignment) = a
  by_cases hpow : ¬ powerOfTwo a
  · rw [if_pos hpow]
    exact ⟨st, _, rfl, .inl ⟨rfl, rfl⟩⟩
  have hle := orderForPages_le pages.toNat
  have hreq : pages.toNat ≠ 0 := fun hz => h0 (UInt32.toNat_inj.mp hz)
  rw [if_neg hpow, if_neg (by omega)]
  generalize orderForPages pages.toNat = o at hle ⊢
  obtain ⟨s₁, x, h₁, hcase⟩ := hi.take o a.toNat ceiling.toNat 
  rw [h₁]
  rcases hcase with ⟨rfl, rfl⟩ | ⟨hx, hd, hsub, m', hi₁, hm, hfr⟩
  · exact ⟨s₁, _, rfl, .inl ⟨rfl, rfl⟩⟩
  · obtain ⟨hi₂, ha, hfr₂, hc⟩ := hi₁.markAllocated hd hreq hle
      (if type ≠ 0 then type.toNat else AURORA_PAGE_NORMAL) (pmmOwnerSlot s₁.pmm_owner_table owner).2
    dsimp only [bind, Except.bind]
    rw [if_neg hx]
    have hslot : ((Pmm.markAllocated s₁ x o pages.toNat
        (if type ≠ 0 then type.toNat else AURORA_PAGE_NORMAL)
        (pmmOwnerSlot s₁.pmm_owner_table owner).2).page_desc x).owner_slot =
        (pmmOwnerSlot s₁.pmm_owner_table owner).2 := by
      simp [Pmm.markAllocated, State.forBlock]
    generalize hs₂ : Pmm.markAllocated s₁ x o pages.toNat
      (if type ≠ 0 then type.toNat else AURORA_PAGE_NORMAL)
      (pmmOwnerSlot s₁.pmm_owner_table owner).2 = s₂ at hi₂ ha hfr₂ hc hslot ⊢
    have hkept : Kept A st s₂ := (hfr.trans (hfr₂.mono hsub)).kept Finset.disjoint_sdiff
    have hstats : s₂.pmm_stats = layoutStats L A :=
      (hfr₂.pmm_stats.trans hfr.pmm_stats).trans hs
    refine ⟨_, _, rfl, .inr ⟨x, m', rfl, hsub, ?_, hm, ?_, hc, ?_, ?_, ?_, ?_⟩⟩
    · exact hi₂.congr rfl rfl (fun _ _ => .of_data rfl) fun _ _ => ⟨rfl, rfl⟩
    · exact ha.congr fun _ _ => .of_data rfl
    · exact ⟨hkept.data, hkept.epochs, hkept.total_pages, hkept.validation_epoch⟩
    · rw [layoutStats_union hsub, ← hstats]
    · rw [← hfr.table]
      exact hslot
    · rw [← hfr.table]

/-- An allocated block becomes free, whatever was written to its own descriptors before. -/
theorem Inv.free_ok {s₀ : State} (hi : Inv L st m A ∅) (hs : st.pmm_stats = layoutStats L A)
    (ha : AllocAt st x o) (hd : 2 ^ o ∣ x) (hb : block x o ⊆ A) (hfr : Frame (block x o) st s₀)
    (hfree : s₀.free_head = st.free_head)
    (hl : ∀ p, p ∉ block x o → (s₀.page_desc p).next = (st.page_desc p).next ∧
      (s₀.page_desc p).prev = (st.page_desc p).prev) (slot : ℕ) :
    ∃ st' m', releaseBlock s₀ x o = .ok st' ∧
      Inv L (accountRelease st' slot (2 ^ o)) m' (A \ block x o) ∅ ∧ Relists m m' ∧
      Kept (A \ block x o) st (accountRelease st' slot (2 ^ o)) ∧
      (accountRelease st' slot (2 ^ o)).pmm_stats = layoutStats L (A \ block x o) ∧
      (accountRelease st' slot (2 ^ o)).pmm_owner_table =
        pmmOwnerDel st.pmm_owner_table slot (2 ^ o) := by
  have hi₁ := hi.takeOut ha hb
  rw [Finset.empty_union] at hi₁
  have hi₂ : Inv L s₀ m (A \ block x o) (block x o) :=
    hi₁.congr hfr.total_pages hfree (fun p hp => .of_data (hfr.data p hp)) hl
  obtain ⟨st', m', hok, hi₃, hm, hfr₃⟩ := hi₂.release hd ha.order_le
  refine ⟨st', m', hok, ?_, hm, ?_, ?_, ?_⟩
  · exact hi₃.congr rfl rfl (fun _ _ => .of_data rfl) fun _ _ => ⟨rfl, rfl⟩
  · have hkept : Kept (A \ block x o) st s₀ := hfr.kept Finset.sdiff_disjoint
    have hkept' : Kept (A \ block x o) s₀ st' := hfr₃.kept Finset.disjoint_sdiff
    exact ⟨fun p hp => (hkept'.data p hp).trans (hkept.data p hp),
      fun p => (hkept'.epochs p).trans (hkept.epochs p),
      hkept'.total_pages.trans hkept.total_pages,
      hkept'.validation_epoch.trans hkept.validation_epoch⟩
  · have hstats : st'.pmm_stats = layoutStats L A :=
      (hfr₃.pmm_stats.trans hfr.pmm_stats).trans hs
    rw [layoutStats_sdiff hi.alloc_sub hb, ← hstats]
    rfl
  · exact congrArg (pmmOwnerDel · slot (2 ^ o)) (hfr₃.table.trans hfr.table)

/-- The block whose head a caller names. -/
theorem Inv.of_isAllocHead (hi : Inv L st m A ∅) (hx : isAllocHead st x) :
    x ∈ A ∧ 2 ^ (st.page_desc x).order ∣ x ∧ block x (st.page_desc x).order ⊆ A ∧
      AllocAt st x (st.page_desc x).order := by
  simp only [isAllocHead, decide_eq_true_eq] at hx
  obtain ⟨hstate, howner⟩ := hx
  have hA : x ∈ A := by
    rw [← hi.isAlloc_iff, hstate]
    rfl
  have hblock := hi.alloc x hA
  rw [howner] at hblock
  exact ⟨hA, hblock.1, hblock.2.1, hblock.2.2.2⟩

/-- A change of the count of an allocated single page that leaves it nonzero. -/
theorem Inv.setRefcount (hi : Inv L st m A hole) (hx : (st.page_desc x).order = 0) {n : ℕ}
    (hn : n ≠ 0) : Inv L (st.setDesc x { st.page_desc x with refcount := n }) m A hole := by
  refine hi.congr rfl rfl (fun p _ => ?_) fun p _ => ?_
  · simp only [State.setDesc, Function.update_apply]
    split_ifs with hp
    · rw [hp]
      exact ⟨rfl, rfl, rfl, rfl, fun _ => hn, fun h0 => absurd hx h0⟩
    · exact .of_data rfl
  · simp only [State.setDesc, Function.update_apply]
    split_ifs with hp
    · rw [hp]
      exact ⟨rfl, rfl⟩
    · exact ⟨rfl, rfl⟩

/-! ## The callers' view -/

/-- The blocks are in order, the counters are right, and the callers hold exactly the allocated
blocks. -/
structure HeldInv (L : Layout) (m : ℕ → List ℕ) (A : Finset ℕ) (s : Machine) : Prop where
  running : s.halted = none
  blocks : Inv L s.pmm m A ∅
  epochs : Epochs s.pmm
  stats : s.pmm.pmm_stats = layoutStats L A
  nodup : s.held.Nodup
  held : ∀ b ∈ s.held, block b.1 b.2 ⊆ A ∧ AllocAt s.pmm b.1 b.2 ∧
    s.refs b.1 = (s.pmm.page_desc b.1).refcount
  holds : ∀ p ∈ A, ((s.pmm.page_desc p).owner, (s.pmm.page_desc p).order) ∈ s.held

/-- Moreover no block lies behind the table. -/
structure MachineInv (L : Layout) (m : ℕ → List ℕ) (A : Finset ℕ) (s : Machine) : Prop
    extends HeldInv L m A s where
  high : ∀ r, PMM_MAX_ORDER < r → m r = []

variable {s : Machine}

theorem SameHigh.high {m' : ℕ → List ℕ} (hm : SameHigh m m')
    (h : ∀ r, PMM_MAX_ORDER < r → m r = []) : ∀ r, PMM_MAX_ORDER < r → m' r = [] :=
  fun r hr => (hm r hr).trans (h r hr)

/-- A held block is the one its pages name. -/
theorem HeldInv.held_eq (hi : HeldInv L m A s) {b : ℕ × ℕ} (hb : b ∈ s.held)
    (hp : p ∈ block b.1 b.2) :
    (s.pmm.page_desc p).owner = b.1 ∧ (s.pmm.page_desc p).order = b.2 :=
  let hpage := (hi.held b hb).2.1.pages p hp
  ⟨hpage.1, hpage.2.1⟩

/-- Another block is held: the pages of `block x o` were free. -/
theorem HeldInv.take_held (hi : HeldInv L m A s) {m' : ℕ → List ℕ}
    (hsub : block x o ⊆ L.pool \ A) (hi' : Inv L st' m' (A ∪ block x o) ∅) (ha : AllocAt st' x o)
    (hc : (st'.page_desc x).refcount = 1) (hk : Kept A s.pmm st')
    (hstats : st'.pmm_stats = layoutStats L (A ∪ block x o)) :
    HeldInv L m' (A ∪ block x o) { s with
      pmm := st'
      held := (x, o) :: s.held
      refs := Function.update s.refs x 1 } where
  running := hi.running
  blocks := hi'
  epochs := hk.epochs_of hi.epochs
  stats := hstats
  nodup := by
    refine List.nodup_cons.mpr ⟨fun hb => ?_, hi.nodup⟩
    exact (Finset.mem_sdiff.mp (hsub (head_mem_block x o))).2
      ((hi.held _ hb).1 (head_mem_block x o))
  held b hb := by
    rcases List.mem_cons.mp hb with rfl | hb
    · refine ⟨Finset.subset_union_right, ha, ?_⟩
      dsimp only
      rw [Function.update_self, hc]
    · obtain ⟨hbA, hba, hbc⟩ := hi.held b hb
      have hbx : b.1 ≠ x := by
        rintro rfl
        exact (Finset.mem_sdiff.mp (hsub (head_mem_block b.1 o))).2
          (hbA (head_mem_block b.1 b.2))
      refine ⟨hbA.trans Finset.subset_union_left,
        hba.congr fun p hp => .of_data (hk.data p (hbA hp)), ?_⟩
      dsimp only
      rw [Function.update_of_ne hbx, refcount_of_data (hk.data b.1 (hbA (head_mem_block _ _))), hbc]
  holds p hp := by
    rcases Finset.mem_union.mp hp with hp | hp
    · rw [owner_of_data (hk.data p hp), order_of_data (hk.data p hp)]
      exact List.mem_cons_of_mem _ (hi.holds p hp)
    · obtain ⟨ho, hr, -⟩ := ha.pages p hp
      rw [ho, hr]
      exact List.mem_cons_self

/-- A block goes back with its last reference. -/
theorem HeldInv.free_held (hi : HeldInv L m A s) {m' : ℕ → List ℕ}
    (ha : AllocAt s.pmm x o) (hx : (x, o) ∈ s.held) (hc : (s.pmm.page_desc x).refcount = 1)
    (hi' : Inv L st' m' (A \ block x o) ∅) (hk : Kept (A \ block x o) s.pmm st')
    (hstats : st'.pmm_stats = layoutStats L (A \ block x o)) :
    HeldInv L m' (A \ block x o) { s with
      pmm := st'
      held := if s.refs x = 1 then s.held.filter (·.1 ≠ x) else s.held
      refs := Function.update s.refs x (s.refs x - 1) } := by
  rw [if_pos (by rw [(hi.held _ hx).2.2, hc])]
  have hother : ∀ b ∈ s.held, b.1 ≠ x → block b.1 b.2 ⊆ A \ block x o := by
    intro b hb hbx p hp
    refine Finset.mem_sdiff.mpr ⟨(hi.held b hb).1 hp, fun hpx => hbx ?_⟩
    rw [← (hi.held_eq hb hp).1, (ha.pages p hpx).1]
  refine ⟨hi.running, hi', hk.epochs_of hi.epochs, hstats,
    hi.nodup.filter _, ?_, ?_⟩
  · intro b hb
    obtain ⟨hb, hbx⟩ := List.mem_filter.mp hb
    rw [decide_eq_true_eq] at hbx
    have hsub := hother b hb hbx
    obtain ⟨-, hba, hbc⟩ := hi.held b hb
    refine ⟨hsub, hba.congr fun p hp => .of_data (hk.data p (hsub hp)), ?_⟩
    dsimp only
    rw [Function.update_of_ne hbx, refcount_of_data (hk.data b.1 (hsub (head_mem_block _ _))), hbc]
  · intro p hp
    rw [owner_of_data (hk.data p hp), order_of_data (hk.data p hp)]
    obtain ⟨hpA, hpx⟩ := Finset.mem_sdiff.mp hp
    have hheld := hi.holds p hpA
    refine List.mem_filter.mpr ⟨hheld, ?_⟩
    rw [decide_eq_true_eq]
    intro he
    dsimp only at he
    -- the two blocks have one head, hence one order, and the page is in the first
    have hxo := (hi.held_eq hx (head_mem_block x o)).2
    have hxo' := (hi.held_eq hheld (head_mem_block _ _)).2
    dsimp only at hxo hxo'
    rw [he] at hxo'
    have hpb := (hi.blocks.alloc p hpA).2.2.1
    rw [he, ← hxo', hxo] at hpb
    exact hpx hpb

/-- The number of references to a single page changes on both sides. -/
theorem HeldInv.count_held (hi : HeldInv L m A s) (hx : (x, 0) ∈ s.held) {n : ℕ}
    (hn : n ≠ 0) :
    HeldInv L m A { s with
      pmm := s.pmm.setDesc x { s.pmm.page_desc x with refcount := n }
      refs := Function.update s.refs x n } := by
  have hord : (s.pmm.page_desc x).order = 0 := (hi.held_eq hx (head_mem_block x 0)).2
  refine ⟨hi.running, hi.blocks.setRefcount hord hn, ⟨hi.epochs.lt, fun p hp => ?_⟩,
    hi.stats, hi.nodup, fun b hb => ?_, fun p hp => ?_⟩
  · dsimp only
    by_cases hpx : p = x
    · rw [hpx, State.setDesc_self]
      exact hi.epochs.le x (hpx ▸ hp)
    · rw [State.setDesc_ne _ _ hpx]
      exact hi.epochs.le p hp
  · obtain ⟨hbA, hba, hbc⟩ := hi.held b hb
    refine ⟨hbA, hba.congr fun p _ => ?_, ?_⟩
    · dsimp only
      by_cases hpx : p = x
      · rw [hpx, State.setDesc_self]
        exact ⟨rfl, rfl, rfl, rfl, fun _ => hn, fun h0 => absurd hord h0⟩
      · rw [State.setDesc_ne _ _ hpx]
        exact .of_data rfl
    · dsimp only
      by_cases hbx : b.1 = x
      · rw [hbx, State.setDesc_self, Function.update_self]
      · rw [State.setDesc_ne _ _ hbx, Function.update_of_ne hbx, hbc]
  · dsimp only
    by_cases hpx : p = x
    · rw [hpx, State.setDesc_self]
      exact hi.holds x (hpx ▸ hp)
    · rw [State.setDesc_ne _ _ hpx]
      exact hi.holds p hp

/-- A write that does not touch what the blocks are made of. -/
theorem HeldInv.congr (hi : HeldInv L m A s) (hb : Inv L st' m A ∅) (he : Epochs st')
    (hs : st'.pmm_stats = s.pmm.pmm_stats)
    (hd : ∀ p, (st'.page_desc p).owner = (s.pmm.page_desc p).owner ∧
      (st'.page_desc p).order = (s.pmm.page_desc p).order ∧
      (st'.page_desc p).refcount = (s.pmm.page_desc p).refcount) :
    HeldInv L m A { s with pmm := st' } where
  running := hi.running
  blocks := hb
  epochs := he
  stats := hs.trans hi.stats
  nodup := hi.nodup
  held b hm := by
    obtain ⟨hbA, -, hbc⟩ := hi.held b hm
    have hhead := hi.held_eq hm (head_mem_block b.1 b.2)
    -- the descriptors of the block are those of its head's owner
    obtain ⟨-, -, -, ha⟩ := hb.alloc b.1 (hbA (head_mem_block _ _))
    rw [(hd b.1).1, (hd b.1).2.1, hhead.1, hhead.2] at ha
    exact ⟨hbA, ha, by rw [hbc, (hd b.1).2.2]⟩
  holds p hp := by
    dsimp only
    rw [(hd p).1, (hd p).2.1]
    exact hi.holds p hp

/-! ## Steps -/

/-- What a step did to the blocks that are held and to the accounts of their owners. -/
inductive Effect (s s' : Machine) : Act → Prop
  /-- Nothing. -/
  | quiet (a : Act) (held : s'.held = s.held)
      (table : s'.pmm.pmm_owner_table = s.pmm.pmm_owner_table)
      (allocated : s'.pmm.pmm_stats.allocated_pages = s.pmm.pmm_stats.allocated_pages)
      (slots : ∀ b ∈ s.held,
        (s'.pmm.page_desc b.1).owner_slot = (s.pmm.page_desc b.1).owner_slot) : Effect s s' a
  /-- A block was handed out and charged to the slot of its owner. -/
  | taken (pages alignment : UInt32) (ceiling : UInt64) (type : UInt8) (owner : ℤ) (x o : ℕ)
      (fresh : ∀ b ∈ s.held, b.1 ≠ x) (held : s'.held = (x, o) :: s.held)
      (table : s'.pmm.pmm_owner_table = pmmOwnerAdd (pmmOwnerSlot s.pmm.pmm_owner_table owner).1
        (pmmOwnerSlot s.pmm.pmm_owner_table owner).2 (2 ^ o))
      (allocated : s'.pmm.pmm_stats.allocated_pages = s.pmm.pmm_stats.allocated_pages + 2 ^ o)
      (slot : (s'.pmm.page_desc x).owner_slot = (pmmOwnerSlot s.pmm.pmm_owner_table owner).2)
      (slots : ∀ b ∈ s.held,
        (s'.pmm.page_desc b.1).owner_slot = (s.pmm.page_desc b.1).owner_slot) :
      Effect s s' (.alloc pages alignment ceiling type owner)
  /-- A block went back, and its slot was credited. -/
  | freed (a : Act) (x o : ℕ) (mem : (x, o) ∈ s.held)
      (held : s'.held = s.held.filter fun b => b.1 ≠ x)
      (table : s'.pmm.pmm_owner_table =
        pmmOwnerDel s.pmm.pmm_owner_table (s.pmm.page_desc x).owner_slot (2 ^ o))
      (allocated : s'.pmm.pmm_stats.allocated_pages = s.pmm.pmm_stats.allocated_pages - 2 ^ o)
      (slots : ∀ b ∈ s.held, b.1 ≠ x →
        (s'.pmm.page_desc b.1).owner_slot = (s.pmm.page_desc b.1).owner_slot) : Effect s s' a

theorem Effect.refl (s : Machine) (a : Act) : Effect s s a :=
  .quiet a rfl rfl rfl fun _ _ => rfl

/-- A step from `s` keeps the blocks in order, moves none behind the table and has an effect. -/
def StepOk (L : Layout) (m : ℕ → List ℕ) (s : Machine) (a : Act) (s' : Machine) : Prop :=
  ∃ m' A', HeldInv L m' A' s' ∧ Relists m m' ∧ Effect s s' a

theorem HeldInv.stay (hi : HeldInv L m A s) (a : Act) : StepOk L m s a s :=
  ⟨m, A, hi, .refl m, .refl s a⟩

theorem HeldInv.head_mem (hi : HeldInv L m A s) {b : ℕ × ℕ} (hb : b ∈ s.held) : b.1 ∈ A :=
  (hi.held b hb).1 (head_mem_block b.1 b.2)

theorem HeldInv.alloc_step (hi : HeldInv L m A s) (pages alignment : UInt32)
    (ceiling : UInt64) (type : UInt8) (owner : ℤ) :
    StepOk L m s (.alloc pages alignment ceiling type owner)
      (step s (.alloc pages alignment ceiling type owner)) := by
  obtain ⟨st', phys, hok, hcase⟩ :=
    hi.blocks.alloc_ok hi.stats pages alignment ceiling type owner
  unfold step
  rw [if_neg (by simp [hi.running])]
  dsimp only
  rw [hok]
  dsimp only
  unfold Machine.take
  rcases hcase with ⟨hphys, rfl⟩ | ⟨x, m', rfl, hsub, hi', hm, ha, hc, hk, hstats, hslot, htable⟩
  · rw [if_pos hphys]
    exact hi.stay _
  · rw [if_neg (by unfold PAGE_SIZE PMM_INVALID_PHYS; omega),
      Nat.mul_div_cancel _ (by unfold PAGE_SIZE; omega)]
    refine ⟨m', _, hi.take_held hsub hi' ha hc hk hstats, hm, ?_⟩
    have hx : ∀ b ∈ s.held, b.1 ≠ x := by
      intro b hb he
      have hfree := (Finset.mem_sdiff.mp (hsub (head_mem_block x _))).2
      exact hfree (he ▸ hi.head_mem hb)
    refine .taken pages alignment ceiling type owner x _ hx rfl htable ?_ hslot fun b hb =>
      slot_of_data (hk.data b.1 (hi.head_mem hb))
    dsimp only
    rw [hstats, hi.stats, layoutStats_union hsub]

theorem HeldInv.mem_held (hi : HeldInv L m A s) (hx : isAllocHead s.pmm x) :
    (x, (s.pmm.page_desc x).order) ∈ s.held := by
  have hm := hi.holds x (hi.blocks.of_isAllocHead hx).1
  simp only [isAllocHead, decide_eq_true_eq] at hx
  rwa [hx.2] at hm

/-- The effect of giving back the last reference to a block. -/
theorem HeldInv.freed (hi : HeldInv L m A s) {a : Act} (ha : AllocAt s.pmm x o)
    (hx : (x, o) ∈ s.held) (hb : block x o ⊆ A) (hc : (s.pmm.page_desc x).refcount = 1)
    (hk : Kept (A \ block x o) s.pmm st') (hstats : st'.pmm_stats = layoutStats L (A \ block x o))
    (htable : st'.pmm_owner_table =
      pmmOwnerDel s.pmm.pmm_owner_table (s.pmm.page_desc x).owner_slot (2 ^ o)) :
    Effect s { s with
      pmm := st'
      held := if s.refs x = 1 then s.held.filter (·.1 ≠ x) else s.held
      refs := Function.update s.refs x (s.refs x - 1) } a := by
  rw [if_pos (by rw [(hi.held _ hx).2.2, hc])]
  refine .freed a x o hx rfl htable ?_ fun b hm hne => slot_of_data (hk.data b.1 ?_)
  · dsimp only
    rw [hstats, hi.stats, layoutStats_sdiff hi.blocks.alloc_sub hb]
  · refine Finset.mem_sdiff.mpr ⟨hi.head_mem hm, fun hin => hne ?_⟩
    rw [← (hi.held_eq hm (head_mem_block b.1 b.2)).1, (ha.pages b.1 hin).1]

/-- The effect of a new number of references. -/
theorem Effect.count (s : Machine) (a : Act) (x n : ℕ) :
    Effect s { s with
      pmm := s.pmm.setDesc x { s.pmm.page_desc x with refcount := n }
      refs := Function.update s.refs x n } a := by
  refine .quiet a rfl rfl rfl fun b _ => ?_
  dsimp only
  by_cases hb : b.1 = x
  · rw [hb, State.setDesc_self]
  · rw [State.setDesc_ne _ _ hb]

theorem HeldInv.releasePage_step (hi : HeldInv L m A s) (phys : UInt64) :
    StepOk L m s (.releasePage phys) (step s (.releasePage phys)) := by
  unfold step
  rw [if_neg (by simp [hi.running])]
  dsimp only [auPmmngrReleasePage]
  by_cases hbad : badAddress s.pmm phys
  · rw [if_pos hbad]
    exact hi.stay _
  rw [if_neg hbad]
  generalize hx : phys.toNat / PAGE_SIZE = x
  by_cases hgood : isAllocHead s.pmm x ∧ (s.pmm.page_desc x).order = 0 ∧
      (s.pmm.page_desc x).requested_pages = 1 ∧ (s.pmm.page_desc x).refcount ≠ 0
  · rw [if_pos hgood]
    obtain ⟨hhead, hord, -, hc⟩ := hgood
    have hheld := hi.mem_held hhead
    obtain ⟨hA, hd, hb, ha⟩ := hi.blocks.of_isAllocHead hhead
    have hrefs := (hi.held _ hheld).2.2
    rw [hord] at hheld hd hb ha
    dsimp only at hrefs
    by_cases hlast : (s.pmm.page_desc x).refcount - 1 = 0
    · rw [if_pos hlast]
      obtain ⟨st', m', hok, hi', hm, hk, hstats, htable⟩ := hi.blocks.free_ok hi.stats ha hd hb
        (Frame.setDesc 0 (d := { s.pmm.page_desc x with
          refcount := (s.pmm.page_desc x).refcount - 1 }) rfl) rfl (fun p hp => by
          have hne : p ≠ x := fun he => hp (he ▸ head_mem_block x 0)
          rw [State.setDesc_ne _ _ hne]
          exact ⟨rfl, rfl⟩) (s.pmm.page_desc x).owner_slot
      rw [hok]
      dsimp only [bind, Except.bind]
      rw [if_pos rfl]
      unfold Machine.giveBack
      dsimp only
      rw [hx]
      exact ⟨m', _, hi.free_held ha hheld (by omega) hi' hk hstats, hm,
        hi.freed ha hheld hb (by omega) hk hstats htable⟩
    · rw [if_neg hlast]
      dsimp only
      rw [if_pos rfl]
      unfold Machine.giveBack
      dsimp only
      rw [hx, hrefs, if_neg (by omega)]
      exact ⟨m, A, hi.count_held hheld hlast, .refl m, .count s _ x _⟩
  · rw [if_neg hgood]
    exact hi.stay _

theorem HeldInv.releasePages_step (hi : HeldInv L m A s) (phys : UInt64) :
    StepOk L m s (.releasePages phys) (step s (.releasePages phys)) := by
  unfold step
  rw [if_neg (by simp [hi.running])]
  dsimp only [auPmmngrReleasePages]
  by_cases hbad : badAddress s.pmm phys
  · rw [if_pos hbad]
    exact hi.stay _
  rw [if_neg hbad]
  generalize hx : phys.toNat / PAGE_SIZE = x
  by_cases hgood : isAllocHead s.pmm x ∧ (s.pmm.page_desc x).requested_pages ≠ 0 ∧
      ∀ i < 2 ^ (s.pmm.page_desc x).order, (s.pmm.page_desc (x + i)).refcount = 1
  · rw [if_pos hgood]
    obtain ⟨hhead, -, hc⟩ := hgood
    have hheld := hi.mem_held hhead
    obtain ⟨hA, hd, hb, ha⟩ := hi.blocks.of_isAllocHead hhead
    have hc := hc 0 (Nat.two_pow_pos _)
    rw [Nat.add_zero] at hc
    obtain ⟨st', m', hok, hi', hm, hk, hstats, htable⟩ := hi.blocks.free_ok hi.stats ha hd hb
      (.refl _ s.pmm) rfl (fun _ _ => ⟨rfl, rfl⟩) (s.pmm.page_desc x).owner_slot
    rw [hok]
    dsimp only [bind, Except.bind]
    rw [if_pos rfl]
    unfold Machine.giveBack
    dsimp only
    rw [hx]
    exact ⟨m', _, hi.free_held ha hheld hc hi' hk hstats, hm,
      hi.freed ha hheld hb hc hk hstats htable⟩
  · rw [if_neg hgood]
    exact hi.stay _

theorem HeldInv.retainPage_step (hi : HeldInv L m A s) (phys : UInt64) :
    StepOk L m s (.retainPage phys) (step s (.retainPage phys)) := by
  unfold step
  rw [if_neg (by simp [hi.running])]
  dsimp only [auPmmngrRetainPage]
  by_cases hbad : badAddress s.pmm phys
  · rw [if_pos hbad]
    exact hi.stay _
  rw [if_neg hbad]
  generalize hx : phys.toNat / PAGE_SIZE = x
  by_cases hgood : isAllocHead s.pmm x ∧ (s.pmm.page_desc x).order = 0 ∧
      (s.pmm.page_desc x).refcount ≠ 65535
  · rw [if_pos hgood]
    obtain ⟨hhead, hord, -⟩ := hgood
    have hheld := hi.mem_held hhead
    have hrefs := (hi.held _ hheld).2.2
    rw [hord] at hheld
    dsimp only at hrefs ⊢
    rw [if_pos rfl]
    unfold Machine.share
    dsimp only
    rw [hx, hrefs]
    exact ⟨m, A, hi.count_held hheld (by omega), .refl m, .count s _ x _⟩
  · rw [if_neg hgood]
    exact hi.stay _

theorem HeldInv.setBackingBlock_step (hi : HeldInv L m A s) (phys : UInt64) (block : ℤ) :
    StepOk L m s (.setBackingBlock phys block) (step s (.setBackingBlock phys block)) := by
  unfold step
  rw [if_neg (by simp [hi.running])]
  dsimp only [auPmmngrSetBackingBlock]
  split_ifs
  · exact hi.stay _
  · generalize phys.toNat / PAGE_SIZE = x
    have hsame : ∀ p,
        let d := (s.pmm.setDesc x { s.pmm.page_desc x with backing_block := block }).page_desc p
        Alike (s.pmm.page_desc p) d ∧ d.next = (s.pmm.page_desc p).next ∧
          d.prev = (s.pmm.page_desc p).prev ∧ d.refcount = (s.pmm.page_desc p).refcount ∧
          d.owner_slot = (s.pmm.page_desc p).owner_slot := by
      intro p
      by_cases hp : p = x
      · rw [hp, State.setDesc_self]
        exact ⟨⟨rfl, rfl, rfl, rfl, id, fun _ => rfl⟩, rfl, rfl, rfl, rfl⟩
      · rw [State.setDesc_ne _ _ hp]
        exact ⟨.of_data rfl, rfl, rfl, rfl, rfl⟩
    refine ⟨m, A, hi.congr (hi.blocks.congr rfl rfl (fun p _ => (hsame p).1)
      fun p _ => ⟨(hsame p).2.1, (hsame p).2.2.1⟩) ⟨hi.epochs.lt, fun p hp => ?_⟩ rfl fun p =>
      ⟨(hsame p).1.owner, (hsame p).1.order, (hsame p).2.2.2.1⟩, .refl m,
      .quiet _ rfl rfl rfl fun b _ => (hsame b.1).2.2.2.2⟩
    have hfr : Frame (Base.block x 0) s.pmm
        (s.pmm.setDesc x { s.pmm.page_desc x with backing_block := block }) := .setDesc 0 rfl
    have he := hfr.epochs p
    exact Nat.le_trans (Nat.le_of_eq he) (hi.epochs.le p hp)
  · exact hi.stay _

theorem HeldInv.validate_step (hi : HeldInv L m A s) :
    StepOk L m s .validate (step s .validate) := by
  obtain ⟨st', b, hv, -, hi', he, hs, htable, hd⟩ := hi.blocks.validate hi.epochs hi.stats
  unfold step
  rw [if_neg (by simp [hi.running])]
  dsimp only
  rw [hv]
  refine ⟨m, A, hi.congr hi' he hs fun p =>
    ⟨owner_of_data (hd p), order_of_data (hd p), refcount_of_data (hd p)⟩, .refl m, ?_⟩
  exact .quiet _ rfl htable (congrArg AuPmmStats.allocated_pages hs) fun b _ => slot_of_data (hd b.1)

/-- The step lemma. -/
theorem HeldInv.step (hi : HeldInv L m A s) (a : Act) : StepOk L m s a (Pmm.step s a) := by
  cases a with
  | alloc pages alignment ceiling type owner =>
    exact hi.alloc_step pages alignment ceiling type owner
  | releasePage phys => exact hi.releasePage_step phys
  | releasePages phys => exact hi.releasePages_step phys
  | retainPage phys => exact hi.retainPage_step phys
  | setBackingBlock phys block => exact hi.setBackingBlock_step phys block
  | validate => exact hi.validate_step

theorem MachineInv.step (hi : MachineInv L m A s) (a : Act) :
    ∃ m' A', MachineInv L m' A' (Pmm.step s a) := by
  obtain ⟨m', A', hi', hm, -⟩ := hi.toHeldInv.step a
  exact ⟨m', A', ⟨hi', hm.high.high hi.high⟩⟩

/-- Every run keeps the blocks in order. -/
theorem MachineInv.run (hi : MachineInv L m A s) (as : List Act) :
    ∃ m' A', MachineInv L m' A' (Base.run Pmm.step s as) :=
  run_invariant (I := fun s => ∃ m A, MachineInv L m A s)
    (fun _ a ⟨_, _, hi⟩ => hi.step a) as ⟨m, A, hi⟩

end Xeneva.Pmm

/-!
# The backing block of a page

A page of the file cache names its disk block. Giving back one page says nothing new about
another.
-/

namespace Xeneva.Pmm
open Base

variable {L : Layout} {m : ℕ → List ℕ} {A : Finset ℕ} {s : Machine} {st st' : State} {y : ℕ}

def auPmmngrGetBackingBlock (st : State) (phys : UInt64) : ℤ :=
  if badAddress st phys then -1
  else
    let d := st.page_desc (phys.toNat / PAGE_SIZE)
    if d.state = .allocHead ∧ d.order = 0 then d.backing_block else -1

theorem auPmmngrGetBackingBlock_congr {phys : UInt64} (ht : st'.total_pages = st.total_pages)
    (hd : (st'.page_desc (phys.toNat / PAGE_SIZE)).data =
        (st.page_desc (phys.toNat / PAGE_SIZE)).data ∨
      isAlloc (st'.page_desc (phys.toNat / PAGE_SIZE)).state = false ∧
        isAlloc (st.page_desc (phys.toNat / PAGE_SIZE)).state = false) :
    auPmmngrGetBackingBlock st' phys = auPmmngrGetBackingBlock st phys := by
  have hbad : badAddress st' phys = badAddress st phys := by
    unfold badAddress validPage
    rw [ht]
  unfold auPmmngrGetBackingBlock
  rw [hbad]
  apply ite_congr rfl (fun _ => rfl)
  intro _
  dsimp only
  apply hd.elim
  · intro hd
    have hb : (st'.page_desc (phys.toNat / PAGE_SIZE)).backing_block =
        (st.page_desc (phys.toNat / PAGE_SIZE)).backing_block :=
      (congrArg PmmPageDesc.backing_block hd :)
    rw [state_of_data hd, order_of_data hd, hb]
  · intro hd
    have hne : ∀ {d : PmmPageDesc}, isAlloc d.state = false → d.state ≠ .allocHead := by
      intro d ha hs
      rw [hs] at ha
      exact absurd ha (by decide)
    rw [if_neg fun hc => hne hd.1 hc.1, if_neg fun hc => hne hd.2 hc.1]

/-- Giving back a page leaves the backing block of each other page as it was. -/
theorem HeldInv.backing_releasePage (hi : HeldInv L m A s) {phys phys' : UInt64}
    (hne : phys'.toNat / PAGE_SIZE ≠ phys.toNat / PAGE_SIZE) :
    auPmmngrGetBackingBlock (Pmm.step s (.releasePage phys)).pmm phys' =
      auPmmngrGetBackingBlock s.pmm phys' := by
  unfold Pmm.step
  rw [if_neg (by simp [hi.running])]
  dsimp only [auPmmngrReleasePage]
  by_cases hbad : badAddress s.pmm phys
  · rw [if_pos hbad]
    rfl
  rw [if_neg hbad]
  generalize phys.toNat / PAGE_SIZE = x at hne
  by_cases hgood : isAllocHead s.pmm x ∧ (s.pmm.page_desc x).order = 0 ∧
      (s.pmm.page_desc x).requested_pages = 1 ∧ (s.pmm.page_desc x).refcount ≠ 0
  · rw [if_pos hgood]
    obtain ⟨hhead, hord, -, -⟩ := hgood
    obtain ⟨hA, hd, hb, ha⟩ := hi.blocks.of_isAllocHead hhead
    rw [hord] at hd hb ha
    by_cases hlast : (s.pmm.page_desc x).refcount - 1 = 0
    · rw [if_pos hlast]
      obtain ⟨st', m', hok, hi', -, hk, -, -⟩ := hi.blocks.free_ok hi.stats ha hd hb
        (Frame.setDesc 0 (d := { s.pmm.page_desc x with
          refcount := (s.pmm.page_desc x).refcount - 1 }) rfl) rfl (fun p hp => by
          have hne : p ≠ x := fun he => hp (he ▸ head_mem_block x 0)
          rw [State.setDesc_ne _ _ hne]
          exact ⟨rfl, rfl⟩) (s.pmm.page_desc x).owner_slot
      rw [hok]
      dsimp only [bind, Except.bind]
      rw [if_pos rfl]
      apply auPmmngrGetBackingBlock_congr hk.total_pages
      by_cases hy : phys'.toNat / PAGE_SIZE ∈ A \ Base.block x 0
      · exact Or.inl (hk.data _ hy)
      · apply Or.inr
        have hyA : phys'.toNat / PAGE_SIZE ∉ A := by
          intro hin
          apply hy
          apply Finset.mem_sdiff.mpr
          refine ⟨hin, ?_⟩
          intro hblk
          apply hne
          simpa [Base.block] using hblk
        constructor
        · exact Bool.eq_false_iff.mpr fun hal => hy ((hi'.isAlloc_iff _).mp hal)
        · exact Bool.eq_false_iff.mpr fun hal => hyA ((hi.blocks.isAlloc_iff _).mp hal)
    · rw [if_neg hlast]
      dsimp only
      rw [if_pos rfl]
      unfold Machine.giveBack
      dsimp only
      apply auPmmngrGetBackingBlock_congr
      · rfl
      · apply Or.inl
        rw [State.setDesc_ne _ _ hne]
  · rw [if_neg hgood]
    rfl

/-- A page that was never handed out cannot be given back. -/
theorem HeldInv.releasePage_outside (hi : HeldInv L m A s) {phys : UInt64}
    (h : phys.toNat / PAGE_SIZE ∉ L.pool) : Pmm.step s (.releasePage phys) = s := by
  have hhead : ¬isAllocHead s.pmm (phys.toNat / PAGE_SIZE) :=
    fun hc => h (hi.blocks.alloc_sub (hi.blocks.of_isAllocHead hc).1)
  unfold Pmm.step
  rw [if_neg (by simp [hi.running])]
  dsimp only [auPmmngrReleasePage]
  by_cases hbad : badAddress s.pmm phys
  · rw [if_pos hbad]
    rfl
  · rw [if_neg hbad, if_neg fun hc => hhead hc.1]
    rfl

end Xeneva.Pmm
