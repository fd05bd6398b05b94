import Xeneva.Mm.PmmCanonical

/-!
# What an allocation finds

The search tries the head of each free block, from the order that holds the pages and the
alignment on. The head is aligned, and nothing in the block lies lower, so the search fails only
when no such block has a part that fits.
-/

namespace Xeneva.Pmm
open Base

variable {L : Layout} {st st' : State} {m : ℕ → List ℕ} {A hole : Finset ℕ} {s : Machine}
  {a b c h o w x : ℕ}

/-- The alignment in pages that a caller asks for; 0 stands for 1. -/
def wantedAlignment (alignment : UInt32) : UInt32 := if alignment = 0 then 1 else alignment

/-- The `2 ^ w` pages from `h` on are aligned and end below the ceiling; 0 stands for none. -/
def Fits (a c w h : ℕ) : Prop := a ∣ h ∧ (c = 0 ∨ (h + 2 ^ w) * PAGE_SIZE - 1 ≤ c)

/-- A free block of order `least` or more has a part that fits. -/
def HasFit (st : State) (least a c w : ℕ) : Prop :=
  ∃ o, least ≤ o ∧ o ≤ PMM_MAX_ORDER ∧ ∃ b ∈ freeBlocks st o, ∃ h,
    block h w ⊆ block b o ∧ Fits a c w h

/-- An allocation hands out a fitting part of a free block, or finds none of order `least` or
more that has one and changes nothing. -/
structure Allocates (st : State) (pages alignment : UInt32) (ceiling : UInt64) (type : UInt8)
    (owner : ℤ) (refused : Prop) (least : ℕ) (st' : State) (phys : ℕ) : Prop where
  ok : auPmmngrAllocPagesForOwner st pages alignment ceiling type owner = .ok (st', phys)
  invalid_iff : phys = PMM_INVALID_PHYS ↔ refused ∨
    ¬HasFit st least (wantedAlignment alignment).toNat ceiling.toNat (orderForPages pages.toNat)
  unchanged : phys = PMM_INVALID_PHYS → st' = st
  found : phys ≠ PMM_INVALID_PHYS → ∃ h, phys = h * PAGE_SIZE ∧
    pages.toNat ≤ 2 ^ orderForPages pages.toNat ∧
    Fits (wantedAlignment alignment).toNat ceiling.toNat (orderForPages pages.toNat) h ∧
    ∃ o ≤ PMM_MAX_ORDER, ∃ b ∈ freeBlocks st o,
      block h (orderForPages pages.toNat) ⊆ block b o

theorem le_two_pow_orderLoop {n order k : ℕ} (hle : o ≤ 2 ^ k) (hk : k ≤ order + n) :
    o ≤ 2 ^ orderLoop o n order := by
  induction n generalizing order with
  | zero => exact hle.trans (Nat.pow_le_pow_right (by decide) hk)
  | succ n ih =>
    unfold orderLoop
    split_ifs with hlt
    · apply ih
      omega
    · exact Nat.not_lt.mp hlt

theorem le_two_pow_orderForPages (pages : UInt32) :
    pages.toNat ≤ 2 ^ orderForPages pages.toNat := by
  apply le_two_pow_orderLoop (k := 32)
  · exact Nat.le_of_lt pages.toNat_lt
  · decide

/-- A number with one bit is a power of two. -/
theorem eq_two_pow_of_and {n : ℕ} (h0 : n ≠ 0) (hand : n &&& (n - 1) = 0) : n = 2 ^ n.log2 := by
  by_contra hne
  have hlow : 2 ^ n.log2 ≤ n := Nat.log2_self_le h0
  have hhigh : n < 2 ^ (n.log2 + 1) := Nat.lt_log2_self
  have hbit : (n &&& (n - 1)).testBit n.log2 = true := by
    rw [Nat.testBit_and, Nat.testBit_log2 h0,
      Nat.testBit_of_two_pow_le_and_two_pow_add_one_gt (by omega) (by omega)]
    rfl
  rw [hand, Nat.zero_testBit] at hbit
  exact Bool.false_ne_true hbit

/-- What the check of the alignment lets through divides the blocks of its order. -/
theorem powerOfTwo_dvd {v : UInt32} (hv : powerOfTwo v) : v.toNat ∣ 2 ^ orderForPages v.toNat := by
  simp only [powerOfTwo, decide_eq_true_eq] at hv
  have h0 : v.toNat ≠ 0 := fun hz => hv.1 (UInt32.toNat_inj.mp hz)
  have hone : 1 ≤ v := UInt32.le_iff_toNat_le.mpr (Nat.one_le_iff_ne_zero.mpr h0)
  have hand : v.toNat &&& (v.toNat - 1) = 0 := by
    have hz := congrArg UInt32.toNat hv.2
    rwa [UInt32.toNat_and, UInt32.toNat_sub_of_le _ _ hone] at hz
  have hpow := eq_two_pow_of_and h0 hand
  have hle := le_two_pow_orderForPages v
  rw [hpow] at hle ⊢
  exact pow_dvd_pow 2 ((Nat.pow_le_pow_iff_right (by decide)).mp hle)

/-! ## The search -/

/-- The search of the orders fails when no block on their lists ends below the ceiling. -/
theorem Inv.findBlock_none (hi : Inv L st m A hole) {n order : ℕ}
    (hy : Pmm.findBlock st w c n order = none) (hle : order ≤ o) (hlt : o < order + n)
    (hb : b ∈ m o) : c ≠ 0 ∧ (b + 2 ^ w) * PAGE_SIZE - 1 > c := by
  induction n generalizing order with
  | zero => omega
  | succ n ih =>
    unfold Pmm.findBlock at hy
    rw [findFit_eq (hi.linked order) (hi.length_le order)] at hy
    split at hy
    · cases hy
    next hnone =>
      by_cases ho : o = order
      · subst ho
        have hno := List.find?_eq_none.mp hnone b hb
        simp only [decide_eq_true_eq, not_not] at hno
        exact hno
      · exact ih hy (by omega) (by omega)

/-- What the search finds ends below the ceiling. -/
theorem Inv.findBlock_below (hi : Inv L st m A hole) {n order : ℕ} {y : ℕ × ℕ}
    (hy : Pmm.findBlock st w c n order = some y) : c = 0 ∨ (y.1 + 2 ^ w) * PAGE_SIZE - 1 ≤ c := by
  induction n generalizing order with
  | zero => cases hy
  | succ n ih =>
    unfold Pmm.findBlock at hy
    rw [findFit_eq (hi.linked order) (hi.length_le order)] at hy
    split at hy
    next head hsome =>
      cases hy
      have hfit := List.find?_some hsome
      simp only [decide_eq_true_eq, not_and_or, not_not, Nat.not_lt] at hfit
      exact hfit
    · exact ih hy

/-- The head of an aligned block is its lowest part. -/
theorem HasFit.head (hi : Inv L st m A ∅) {least : ℕ} (hf : HasFit st least a c w) :
    ∃ o, least ≤ o ∧ o ≤ PMM_MAX_ORDER ∧ ∃ b ∈ m o,
      c = 0 ∨ (b + 2 ^ w) * PAGE_SIZE - 1 ≤ c := by
  obtain ⟨o, hle, hmax, b, hb, h, hsub, -, hc⟩ := hf
  rw [hi.freeBlocks_eq] at hb
  refine ⟨o, hle, hmax, b, hb, hc.imp_right ?_⟩
  intro hc
  have hhead := mem_block.mp (hsub (head_mem_block h w))
  have hmono : (b + 2 ^ w) * PAGE_SIZE ≤ (h + 2 ^ w) * PAGE_SIZE :=
    Nat.mul_le_mul_right _ (by omega)
  exact (Nat.sub_le_sub_right hmono 1).trans hc

/-- `take_block` finds a head that fits, or there is no fit of the orders it looks at. -/
theorem Inv.take_fit (hi : Inv L st m A ∅) {v : UInt32} (hv : powerOfTwo v)
    (hok : takeBlock st w v.toNat c = .ok (st', x)) :
    (x = PMM_NO_PAGE → ¬HasFit st (max w (orderForPages v.toNat)) v.toNat c w) ∧
      (x ≠ PMM_NO_PAGE → Fits v.toNat c w x ∧ ∃ o, max w (orderForPages v.toNat) ≤ o ∧
        o ≤ PMM_MAX_ORDER ∧ ∃ b ∈ freeBlocks st o, block x w ⊆ block b o) := by
  have hstart : (if w > orderForPages v.toNat then w else orderForPages v.toNat) =
      max w (orderForPages v.toNat) := by
    split_ifs <;> omega
  unfold takeBlock at hok
  dsimp only at hok
  rw [hstart] at hok
  split at hok
  next hnone =>
    cases hok
    constructor
    · intro _ hf
      obtain ⟨o, hle, hmax, b, hb, hc⟩ := hf.head hi
      have hno := hi.findBlock_none hnone hle (by omega) hb
      omega
    · intro hne
      exact absurd rfl hne
  next head order hsome =>
    obtain ⟨s₁, -, hok⟩ := ok_of_bind hok
    obtain ⟨s₂, -, hok⟩ := ok_of_bind hok
    cases hok
    obtain ⟨hx, hle, hlt⟩ := hi.findBlock hsome
    dsimp only at hx hle hlt
    have hbelow := hi.findBlock_below hsome
    obtain ⟨hd, -⟩ := hi.listed order x hx
    have hpool := hi.mem_pool hx
    constructor
    · intro he
      exact absurd he (L.ne_no_page hpool)
    · intro _
      refine ⟨⟨?_, hbelow⟩, order, hle, by omega, x, ?_, ?_⟩
      · have hao : 2 ^ orderForPages v.toNat ∣ 2 ^ order := pow_dvd_pow 2 (by omega)
        exact (powerOfTwo_dvd hv).trans (hao.trans hd)
      · rwa [hi.freeBlocks_eq]
      · intro p hp
        have hpow := Nat.pow_le_pow_right (n := 2) (by decide) (show w ≤ order by omega)
        rw [mem_block] at hp ⊢
        omega

/-- No address of a page is the invalid one. -/
theorem mul_page_ne_invalid (x : ℕ) : x * PAGE_SIZE ≠ PMM_INVALID_PHYS := by
  unfold PAGE_SIZE PMM_INVALID_PHYS
  omega

/-- An allocation of pages at a power of two is what `take_block` finds. -/
theorem alloc_take {pages alignment : UInt32} {ceiling : UInt64} {type : UInt8} {owner : ℤ}
    {phys : ℕ} (hp : pages ≠ 0) (hv : powerOfTwo (wantedAlignment alignment))
    (hok : auPmmngrAllocPagesForOwner st pages alignment ceiling type owner = .ok (st', phys)) :
    ∃ s₁ x, takeBlock st (orderForPages pages.toNat) (wantedAlignment alignment).toNat
        ceiling.toNat = .ok (s₁, x) ∧
      phys = if x = PMM_NO_PAGE then PMM_INVALID_PHYS else x * PAGE_SIZE := by
  unfold wantedAlignment at hv ⊢
  unfold auPmmngrAllocPagesForOwner at hok
  have hle := orderForPages_le pages.toNat
  rw [if_neg hp] at hok
  dsimp only at hok
  rw [if_neg (not_not.mpr hv), if_neg (by omega)] at hok
  obtain ⟨⟨s₁, x⟩, htake, hok⟩ := ok_of_bind hok
  refine ⟨s₁, x, htake, ?_⟩
  dsimp only at hok
  by_cases hx : x = PMM_NO_PAGE
  · rw [if_pos hx] at hok ⊢
    exact (congrArg Prod.snd (Except.ok.inj hok)).symm
  · rw [if_neg hx] at hok ⊢
    exact (congrArg Prod.snd (Except.ok.inj hok)).symm

/-- What is refused without a search leaves the state as it was. -/
theorem alloc_refused {pages alignment : UInt32} {ceiling : UInt64} {type : UInt8} {owner : ℤ}
    (h : pages = 0 ∨ ¬powerOfTwo (wantedAlignment alignment)) :
    auPmmngrAllocPagesForOwner st pages alignment ceiling type owner =
      .ok (st, PMM_INVALID_PHYS) := by
  unfold wantedAlignment at h
  unfold auPmmngrAllocPagesForOwner
  by_cases hp : pages = 0
  · rw [if_pos hp]
  · rw [if_neg hp]
    dsimp only
    rw [if_pos (h.resolve_left hp)]

/-! ## Every state of a run -/

theorem HeldInv.run (hi : HeldInv L m A s) (as : List Act) :
    ∃ m' A', HeldInv L m' A' (Base.run Pmm.step s as) := by
  refine run_invariant (I := fun s => ∃ m A, HeldInv L m A s) ?_ as ⟨m, A, hi⟩
  intro s a hs
  obtain ⟨m, A, hi⟩ := hs
  obtain ⟨m', A', hi', -⟩ := hi.step a
  exact ⟨m', A', hi'⟩

theorem HeldInv.allocates (hi : HeldInv L m A s) (pages alignment : UInt32) (ceiling : UInt64)
    (type : UInt8) (owner : ℤ) :
    ∃ st' phys, Allocates s.pmm pages alignment ceiling type owner
      (pages = 0 ∨ ¬powerOfTwo (wantedAlignment alignment))
      (max (orderForPages pages.toNat) (orderForPages (wantedAlignment alignment).toNat))
      st' phys := by
  by_cases href : pages = 0 ∨ ¬powerOfTwo (wantedAlignment alignment)
  · refine ⟨s.pmm, PMM_INVALID_PHYS, alloc_refused href, ?_, fun _ => rfl, ?_⟩
    · exact ⟨fun _ => .inl href, fun _ => rfl⟩
    · intro hne
      exact absurd rfl hne
  obtain ⟨st', phys, hok, hcase⟩ := hi.blocks.alloc_ok hi.stats pages alignment ceiling type owner
  rw [not_or, not_not] at href
  obtain ⟨s₁, x, htake, hphys⟩ := alloc_take href.1 href.2 hok
  obtain ⟨hnone, hsome⟩ := hi.blocks.take_fit href.2 htake
  refine ⟨st', phys, hok, ?_, ?_, ?_⟩
  · by_cases hx : x = PMM_NO_PAGE
    · rw [if_pos hx] at hphys
      exact ⟨fun _ => .inr (hnone hx), fun _ => hphys⟩
    · rw [if_neg hx] at hphys
      obtain ⟨hfit, o, hle, hmax, b, hb, hsub⟩ := hsome hx
      constructor
      · intro he
        exact absurd (hphys.symm.trans he) (mul_page_ne_invalid x)
      · intro hno
        rcases hno with hno | hno
        · simp [href.1, href.2] at hno
        · exact absurd ⟨o, hle, hmax, b, hb, x, hsub, hfit⟩ hno
  · intro he
    rcases hcase with hcase | ⟨y, -, hy, -⟩
    · exact hcase.2
    · exact absurd (hy.symm.trans he) (mul_page_ne_invalid y)
  · intro hne
    have hx : x ≠ PMM_NO_PAGE := by
      intro hx
      rw [if_pos hx] at hphys
      exact hne hphys
    rw [if_neg hx] at hphys
    obtain ⟨hfit, o, -, hmax, b, hb, hsub⟩ := hsome hx
    exact ⟨x, hphys, le_two_pow_orderForPages pages, hfit, o, hmax, b, hb, hsub⟩

/-- In every run an allocation refuses no page and an alignment that is not a power of two, and
otherwise fails only if no free block of the orders of both the pages and the alignment has a
part that fits. -/
theorem exec_alloc (bleed : Bool) (info : KernelBootInfo) (st : State)
    (hok : auPmmngrInitialize bleed info = .ok st) (as : List Act) (pages alignment : UInt32)
    (ceiling : UInt64) (type : UInt8) (owner : ℤ) :
    ∃ st' phys, Allocates (run step (boot st) as).pmm pages alignment ceiling type owner
      (pages = 0 ∨ ¬powerOfTwo (wantedAlignment alignment))
      (max (orderForPages pages.toNat) (orderForPages (wantedAlignment alignment).toNat))
      st' phys := by
  obtain ⟨plan, hp, m, -, hi, -⟩ := auPmmngrInitialize_held hok
  obtain ⟨m', A, hi'⟩ := hi.run as
  exact hi'.allocates pages alignment ceiling type owner

theorem exec_alloc_small : ∃ st, auPmmngrInitialize true smallMap = .ok st ∧
    ∃ st' phys, Allocates (run step (boot st) [.alloc 4 0 0 0 7]).pmm 2 2 0x109fff 0 7
      ((2 : UInt32) = 0 ∨ ¬powerOfTwo (wantedAlignment 2))
      (max (orderForPages (2 : UInt32).toNat) (orderForPages (wantedAlignment 2).toNat)) st' phys := by
  have hok : (auPmmngrInitialize true smallMap).toBool = true := by decide +kernel
  cases h : auPmmngrInitialize true smallMap with
  | error e =>
    rw [h] at hok
    cases hok
  | ok st => exact ⟨st, rfl, exec_alloc true smallMap st h [.alloc 4 0 0 0 7] 2 2 0x109fff 0 7⟩

/-- A free page at a multiple of 8 pages is not found for an alignment of 8, as its block is of
order 0; nor is any for no page, or for an alignment of 3. -/
theorem not_exec_alloc : ∃ st, auPmmngrInitialize true smallMap = .ok st ∧
    ∀ q ∈ [(1, 8), (0, 1), (1, 3)], ¬∃ st' phys, Allocates (run step (boot st)
      [.alloc 4 0 0 0 7, .alloc 1 0 0 0 7, .alloc 1 0 0 0 7, .releasePage 0x108000]).pmm
      q.1 q.2 0 0 7 False (orderForPages q.1.toNat) st' phys := by
  have hrun : (match auPmmngrInitialize true smallMap with
      | .error _ => false
      | .ok st =>
        let s := run step (boot st)
          [.alloc 4 0 0 0 7, .alloc 1 0 0 0 7, .alloc 1 0 0 0 7, .releasePage 0x108000]
        decide (264 ∈ freeBlocks s.pmm 0) && [(1, 8), (0, 1), (1, 3)].all fun q =>
          match auPmmngrAllocPagesForOwner s.pmm q.1 q.2 0 0 7 with
          | .error _ => false
          | .ok r => decide (r.2 = PMM_INVALID_PHYS)) = true := by decide +kernel
  cases hst : auPmmngrInitialize true smallMap with
  | error e =>
    rw [hst] at hrun
    cases hrun
  | ok st =>
    rw [hst] at hrun
    dsimp only at hrun
    refine ⟨st, rfl, ?_⟩
    generalize run step (boot st) _ = s at hrun ⊢
    rw [Bool.and_eq_true, decide_eq_true_eq, List.all_eq_true] at hrun
    intro q hq hall
    obtain ⟨st', phys, ha⟩ := hall
    have hphys := hrun.2 q hq
    rw [ha.ok] at hphys
    rcases ha.invalid_iff.mp (of_decide_eq_true hphys) with hno | hno
    · exact hno
    have hdvd : ([(1, 8), (0, 1), (1, 3)].all fun q : UInt32 × UInt32 =>
        decide ((wantedAlignment q.2).toNat ∣ 264 ∧ orderForPages q.1.toNat = 0)) = true := by
      decide +kernel
    obtain ⟨hd, ho⟩ := of_decide_eq_true (List.all_eq_true.mp hdvd q hq)
    apply hno
    rw [ho]
    exact ⟨0, Nat.le_refl _, Nat.zero_le _, 264, hrun.1, 264, Finset.Subset.refl _, hd, .inl rfl⟩

end Xeneva.Pmm
