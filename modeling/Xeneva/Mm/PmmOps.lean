import Xeneva.Mm.PmmBlocks

/-!
# Taking and releasing blocks

What `take_block`, `release_block` and the loops in them do to the blocks.
-/

namespace Xeneva.Pmm
open Base

variable {L : Layout} {st st' : State} {m : ℕ → List ℕ} {A hole T : Finset ℕ} {h o p x : ℕ}

/-- The lists behind the table of list heads are left alone. -/
def SameHigh (m m' : ℕ → List ℕ) : Prop := ∀ o, PMM_MAX_ORDER < o → m' o = m o

theorem SameHigh.refl (m : ℕ → List ℕ) : SameHigh m m := fun _ _ => rfl

theorem SameHigh.trans {m' m'' : ℕ → List ℕ} (h : SameHigh m m') (h' : SameHigh m' m'') :
    SameHigh m m'' := fun o ho => (h' o ho).trans (h o ho)

theorem SameHigh.update (m : ℕ → List ℕ) (ho : o ≤ PMM_MAX_ORDER) (l : List ℕ) :
    SameHigh m (Function.update m o l) :=
  fun _ hr => Function.update_of_ne (by omega) ..

/-- No two free blocks are buddies that could be joined. -/
def NoBuddies (m : ℕ → List ℕ) : Prop := ∀ o < PMM_MAX_ORDER, ∀ h ∈ m o, buddy h o ∉ m o

/-- What a step of the lists keeps. -/
structure Relists (m m' : ℕ → List ℕ) : Prop where
  high : SameHigh m m'
  buddies : NoBuddies m → NoBuddies m'

theorem Relists.refl (m : ℕ → List ℕ) : Relists m m := ⟨.refl m, id⟩

theorem Relists.trans {m' m'' : ℕ → List ℕ} (h : Relists m m') (h' : Relists m' m'') :
    Relists m m'' := ⟨h.high.trans h'.high, fun hn => h'.buddies (h.buddies hn)⟩

theorem Relists.erase (m : ℕ → List ℕ) (x : ℕ) (ho : o ≤ PMM_MAX_ORDER) :
    Relists m (Function.update m o ((m o).erase x)) := by
  refine ⟨.update m ho _, ?_⟩
  intro hn r hr h hh hb
  have hsub : ∀ b, b ∈ Function.update m o ((m o).erase x) r → b ∈ m r := by
    intro b hb
    by_cases hro : r = o
    · subst hro
      rw [Function.update_self] at hb
      exact List.mem_of_mem_erase hb
    · rwa [Function.update_of_ne hro] at hb
  exact hn r hr h (hsub h hh) (hsub _ hb)

theorem Relists.insert (m : ℕ → List ℕ) (ho : o ≤ PMM_MAX_ORDER)
    (hx : o < PMM_MAX_ORDER → buddy x o ∉ m o) :
    Relists m (Function.update m o (x :: m o)) := by
  refine ⟨.update m ho _, ?_⟩
  intro hn r hr h hh hb
  by_cases hro : r = o
  · subst hro
    rw [Function.update_self] at hh hb
    rcases List.mem_cons.mp hh with rfl | hh
    · rcases List.mem_cons.mp hb with hb | hb
      · exact buddy_ne _ _ hb
      · exact hx hr hb
    · rcases List.mem_cons.mp hb with hb | hb
      · apply hx hr
        rw [← hb, buddy_buddy]
        exact hh
      · exact hn r hr h hh hb
  · rw [Function.update_of_ne hro] at hh hb
    exact hn r hr h hh hb

/-! ## Taking a block -/

/-- The search of a list finds the first block that fits. -/
theorem findFit_eq {l : List ℕ} {q head n wanted ceiling : ℕ}
    (hl : Linked PMM_NO_PAGE (fun p => (st.page_desc p).next) (fun p => (st.page_desc p).prev)
      q l head) (hn : l.length ≤ n) :
    findFit st wanted ceiling n head = l.find? fun b =>
      ¬ (ceiling ≠ 0 ∧ (b + 2 ^ wanted) * PAGE_SIZE - 1 > ceiling) := by
  induction l generalizing q head n with
  | nil =>
    rw [show head = PMM_NO_PAGE from hl]
    cases n <;> simp [findFit]
  | cons b l ih =>
    obtain ⟨rfl, hb, -, hl⟩ := hl
    cases n with
    | zero => simp at hn
    | succ n =>
      have ih := ih hl (Nat.le_of_succ_le_succ hn)
      unfold findFit
      rw [if_neg hb, List.find?_cons]
      by_cases hc : ceiling ≠ 0 ∧ (head + 2 ^ wanted) * PAGE_SIZE - 1 > ceiling
      · rw [if_pos hc, ih]
        simp [hc]
      · rw [if_neg hc]
        simp [hc]

theorem Inv.length_le (hi : Inv L st m A hole) (o : ℕ) : (m o).length ≤ st.total_pages := by
  have hsub : (m o).toFinset ⊆ Finset.range L.total := by
    intro b hb
    exact Finset.mem_range.mpr (L.pool_lt b (hi.mem_pool (List.mem_toFinset.mp hb)))
  have hcard := Finset.card_le_card hsub
  rwa [List.toFinset_card_of_nodup (hi.nodup o), Finset.card_range, ← hi.total] at hcard

theorem Inv.findBlock (hi : Inv L st m A hole) {wanted ceiling n order : ℕ} {y : ℕ × ℕ}
    (hy : findBlock st wanted ceiling n order = some y) :
    y.1 ∈ m y.2 ∧ order ≤ y.2 ∧ y.2 < order + n := by
  induction n generalizing order with
  | zero => cases hy
  | succ n ih =>
    unfold Pmm.findBlock at hy
    rw [findFit_eq (hi.linked order) (hi.length_le order)] at hy
    split at hy
    · rename_i head hf
      cases hy
      exact ⟨List.mem_of_find?_eq_some hf, Nat.le_refl _, by dsimp only; omega⟩
    · obtain ⟨hm, h1, h2⟩ := ih hy
      exact ⟨hm, by omega, by omega⟩

/-- Splitting leaves the first part of the block in hand. -/
theorem Inv.split {wanted n : ℕ} (hi : Inv L st m A (block x (wanted + n)))
    (hd : 2 ^ (wanted + n) ∣ x) (hle : wanted + n ≤ PMM_MAX_ORDER) :
    ∃ st' m', splitLoop x wanted n st = .ok st' ∧ Inv L st' m' A (block x wanted) ∧
      Relists m m' ∧ Frame (block x (wanted + n)) st st' := by
  induction n generalizing st m with
  | zero => exact ⟨st, m, rfl, hi, .refl m, .refl _ st⟩
  | succ n ih =>
    have hsum : wanted + (n + 1) = wanted + n + 1 := by omega
    rw [hsum] at hi hd ⊢
    have hsplit := block_succ x (wanted + n)
    obtain ⟨hd₁, hd₂⟩ := dvd_half hd
    have hsub₁ : block x (wanted + n) ⊆ block x (wanted + n + 1) := by
      rw [hsplit]
      exact Finset.subset_union_left
    have hsub₂ : block (x + 2 ^ (wanted + n)) (wanted + n) ⊆ block x (wanted + n + 1) := by
      rw [hsplit]
      exact Finset.subset_union_right
    obtain ⟨s₁, h₁, hi₁, hf₁, hfr₁⟩ := hi.markFree hsub₂
    obtain ⟨s₂, h₂, hi₂, hfr₂⟩ := hi₁.insert hd₂ hsub₂ hf₁
    have hhole : block x (wanted + n + 1) \ block (x + 2 ^ (wanted + n)) (wanted + n) =
        block x (wanted + n) := by
      rw [hsplit, Finset.union_sdiff_right]
      exact (block_halves x (wanted + n)).sdiff_eq_left
    rw [hhole] at hi₂
    obtain ⟨s₃, h₃, hi₃, -, hfr₃⟩ := hi₂.markFree (Finset.Subset.refl _)
    obtain ⟨s₄, m₄, h₄, hi₄, hm₄, hfr₄⟩ := ih hi₃ hd₁ (by omega)
    -- the other half is in hand
    have hleft : buddy (x + 2 ^ (wanted + n)) (wanted + n) ∉ m (wanted + n) := by
      rw [buddy_right hd]
      intro hx
      exact hi.not_hole hx (head_mem_block x _) (head_mem_block x _)
    refine ⟨s₄, m₄, ?_, hi₄, (Relists.insert m (by omega) fun _ => hleft).trans hm₄, ?_⟩
    · unfold splitLoop
      simp only [h₁, h₂, h₃, h₄, bind, Except.bind]
    · exact (hfr₁.mono hsub₂).trans ((hfr₂.mono (Finset.empty_subset _)).trans
        ((hfr₃.mono hsub₁).trans (hfr₄.mono hsub₁)))

theorem Inv.free_block_sub (hi : Inv L st m A hole) (hx : x ∈ m o) : block x o ⊆ L.pool \ A :=
  fun _ hp => Finset.mem_sdiff.mpr ⟨(hi.listed o x hx).2.1 hp, hi.not_alloc hx hp⟩

/-- `take_block` finds nothing, or takes an aligned block of free pages in hand. -/
theorem Inv.take (hi : Inv L st m A ∅) (wanted alignment ceiling : ℕ) :
    ∃ st' x, takeBlock st wanted alignment ceiling = .ok (st', x) ∧
      ((x = PMM_NO_PAGE ∧ st' = st) ∨
        (x ≠ PMM_NO_PAGE ∧ 2 ^ wanted ∣ x ∧ block x wanted ⊆ L.pool \ A ∧
          ∃ m', Inv L st' m' A (block x wanted) ∧ Relists m m' ∧ Frame (L.pool \ A) st st')) := by
  unfold takeBlock
  dsimp only
  cases hf : Pmm.findBlock st wanted ceiling (PMM_MAX_ORDER + 1 -
      (if wanted > orderForPages alignment then wanted else orderForPages alignment))
      (if wanted > orderForPages alignment then wanted else orderForPages alignment) with
  | none => exact ⟨st, _, rfl, .inl ⟨rfl, rfl⟩⟩
  | some y =>
    obtain ⟨x, order⟩ := y
    obtain ⟨hx, hle, hlt⟩ := hi.findBlock hf
    dsimp only at hx hle hlt ⊢
    have hw : wanted ≤ order := by
      split_ifs at hle <;> omega
    have hmax : order ≤ PMM_MAX_ORDER := by omega
    obtain ⟨hd, -⟩ := hi.listed order x hx
    have hsub := hi.free_block_sub hx
    obtain ⟨s₁, h₁, hi₁, hfr₁⟩ := hi.remove hx
    obtain ⟨n, rfl⟩ := Nat.exists_eq_add_of_le hw
    rw [Finset.empty_union] at hi₁
    obtain ⟨s₂, m₂, h₂, hi₂, hm₂, hfr₂⟩ := hi₁.split hd hmax
    have hwsub : block x wanted ⊆ block x (wanted + n) := by
      intro p hp
      have := Nat.pow_le_pow_right (n := 2) (by omega) hw
      simp only [mem_block] at hp ⊢
      omega
    refine ⟨s₂, x, ?_, .inr ⟨L.ne_no_page (hi.mem_pool hx), ?_, hwsub.trans hsub, m₂, hi₂,
      (Relists.erase m x hmax).trans hm₂,
      (hfr₁.mono (Finset.empty_subset _)).trans (hfr₂.mono hsub)⟩⟩
    · simp only [h₁, Nat.add_sub_cancel_left, h₂, bind, Except.bind]
    · exact (pow_dvd_pow 2 hw).trans hd

/-! ## Releasing a block -/

/-- A page with the descriptor of a free head is on its list. -/
theorem Inv.mem_of_isFreeHead (hi : Inv L st m A hole) (hf : isFreeHead st p o) (hp : p ∉ hole) :
    p ∈ m o := by
  simp only [isFreeHead, decide_eq_true_eq] at hf
  obtain ⟨hs, ho, hr⟩ := hf
  have hfree : isFree (st.page_desc p).state = true := by rw [hs]; rfl
  have hpool : p ∈ L.pool := by
    by_contra hn
    rw [hi.outside p hn, L.base_free] at hfree
    cases hfree
  have hA : p ∉ A := by
    intro hA
    have halloc := hi.isAlloc_of_mem hA
    rw [hs] at halloc
    cases halloc
  have hm := (hi.free p hpool hp hA).1
  rwa [ho, hr] at hm

/-- Merging leaves a free block in hand that holds the one released. -/
theorem Inv.merge {n : ℕ} (hi : Inv L st m A (block x o)) (hd : 2 ^ o ∣ x) (hf : FreeAt st x o)
    (ho : o + n = PMM_MAX_ORDER) :
    ∃ st' m' y r, mergeLoop n st x o = .ok (st', y, r) ∧ Inv L st' m' A (block y r) ∧
      2 ^ r ∣ y ∧ FreeAt st' y r ∧ r ≤ PMM_MAX_ORDER ∧ (r < PMM_MAX_ORDER → buddy y r ∉ m' r) ∧
      Relists m m' ∧ Frame (L.pool \ A) st st' := by
  induction n generalizing st m x o with
  | zero =>
    exact ⟨st, m, x, o, rfl, hi, hd, hf, Nat.le_of_eq ho, fun hlt => absurd hlt (by omega), .refl m,
      .refl _ st⟩
  | succ n ih =>
    unfold mergeLoop
    dsimp only
    by_cases hstop : ¬ validPage st (buddy x o) ∨ ¬ isFreeHead st (buddy x o) o
    · rw [if_pos hstop]
      refine ⟨st, m, x, o, rfl, hi, hd, hf, by omega, ?_, .refl m, .refl _ st⟩
      intro _ hm
      obtain ⟨-, hpool, -, hfree⟩ := hi.listed o _ hm
      rcases hstop with hv | hh
      · exact hv (hi.valid (hpool (head_mem_block _ o)))
      · exact hh hfree.head
    · rw [if_neg hstop]
      rw [not_or, not_not, not_not] at hstop
      have hbd := buddy_dvd hd
      have hout : buddy x o ∉ block x o := by
        have := Nat.two_pow_pos o
        rcases buddy_cases hd with ⟨he, -⟩ | ⟨he, -⟩ <;> simp only [mem_block] <;> omega
      have hm := hi.mem_of_isFreeHead hstop.2 hout
      obtain ⟨hunion, hy⟩ := block_buddy hd
      obtain ⟨s₁, h₁, hi₁, hfr₁⟩ := hi.remove hm
      rw [← hunion] at hi₁
      obtain ⟨s₂, h₂, hi₂, hf₂, hfr₂⟩ := hi₁.markFree (Finset.Subset.refl _)
      obtain ⟨s₃, m₃, y, r, h₃, hi₃, hd₃, hf₃, hr₃, hb₃, hm₃, hfr₃⟩ := ih hi₂ hy hf₂ (by omega)
      have hsub : block (if buddy x o < x then buddy x o else x) (o + 1) ⊆ L.pool \ A :=
        fun p hp => Finset.mem_sdiff.mpr
          ⟨hi₁.hole_sub hp, fun hA => Finset.disjoint_left.mp hi₁.apart hA hp⟩
      refine ⟨s₃, m₃, y, r, ?_, hi₃, hd₃, hf₃, hr₃, hb₃,
        (Relists.erase m _ (by omega)).trans hm₃, ?_⟩
      · simp only [h₁, h₂, h₃, bind, Except.bind]
      · exact (hfr₁.mono (Finset.empty_subset _)).trans ((hfr₂.mono hsub).trans hfr₃)

/-- `release_block` makes a block in hand free. -/
theorem Inv.release (hi : Inv L st m A (block x o)) (hd : 2 ^ o ∣ x) (ho : o ≤ PMM_MAX_ORDER) :
    ∃ st' m', releaseBlock st x o = .ok st' ∧ Inv L st' m' A ∅ ∧ Relists m m' ∧
      Frame (L.pool \ A) st st' := by
  have hsub : block x o ⊆ L.pool \ A := fun p hp => Finset.mem_sdiff.mpr
    ⟨hi.hole_sub hp, fun hA => Finset.disjoint_left.mp hi.apart hA hp⟩
  obtain ⟨s₁, h₁, hi₁, hf₁, hfr₁⟩ := hi.markFree (Finset.Subset.refl _)
  obtain ⟨s₂, m₂, y, r, h₂, hi₂, hd₂, hf₂, hr₂, hb₂, hm₂, hfr₂⟩ :=
    hi₁.merge (n := PMM_MAX_ORDER - o) hd hf₁ (by omega)
  obtain ⟨s₃, h₃, hi₃, hfr₃⟩ := hi₂.insert hd₂ (Finset.Subset.refl _) hf₂
  rw [Finset.sdiff_self] at hi₃
  refine ⟨s₃, _, ?_, hi₃, hm₂.trans (Relists.insert m₂ hr₂ hb₂), ?_⟩
  · unfold releaseBlock
    simp only [h₁, h₂, h₃, bind, Except.bind]
  · exact (hfr₁.mono hsub).trans (hfr₂.trans (hfr₃.mono (Finset.empty_subset _)))

/-- A block in hand is marked as allocated. -/
theorem Inv.markAllocated (hi : Inv L st m A (block x o)) (hd : 2 ^ o ∣ x) {requested : ℕ}
    (hreq : requested ≠ 0) (ho : o ≤ PMM_MAX_ORDER) (type slot : ℕ) :
    Inv L (markAllocated st x o requested type slot) m (A ∪ block x o) ∅ ∧
      AllocAt (Pmm.markAllocated st x o requested type slot) x o ∧
      Frame (block x o) st (Pmm.markAllocated st x o requested type slot) ∧
      ((Pmm.markAllocated st x o requested type slot).page_desc x).refcount = 1 := by
  have hi₁ := hi.forBlock (Finset.Subset.refl _) fun i d => { d with
    next := PMM_NO_PAGE
    prev := PMM_NO_PAGE
    owner := x
    backing_block := -1
    requested_pages := if i = 0 then requested else 0
    refcount := 1
    order := o
    state := if i = 0 then .allocHead else .allocTail
    page_type := type
    owner_slot := if i = 0 then slot else d.owner_slot }
  have ha : AllocAt (Pmm.markAllocated st x o requested type slot) x o := by
    refine ⟨fun p hp => ?_, ?_, ho⟩
    · have hc : x ≤ p ∧ p < x + 2 ^ o := mem_block.mp hp
      simp only [Pmm.markAllocated, State.forBlock, hc, and_self, if_true, true_and]
      refine ⟨?_, by simp⟩
      by_cases hpx : p = x
      · simp [hpx]
      · rw [if_neg hpx, if_neg (by omega)]
    · simpa [Pmm.markAllocated, State.forBlock] using hreq
  have hi₂ := hi₁.fill hd (Finset.Subset.refl _) ha
  rw [Finset.sdiff_self] at hi₂
  refine ⟨hi₂, ha, ⟨fun p hp => ?_, fun p => ?_, rfl, rfl, rfl, rfl⟩, ?_⟩
  · have hc : ¬ (x ≤ p ∧ p < x + 2 ^ o) := fun hc => hp (mem_block.mpr hc)
    simp only [Pmm.markAllocated, State.forBlock, hc, if_false]
  · simp only [Pmm.markAllocated, State.forBlock]
    split_ifs <;> rfl
  · simp [Pmm.markAllocated, State.forBlock]

end Xeneva.Pmm
