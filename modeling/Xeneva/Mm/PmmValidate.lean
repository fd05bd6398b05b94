import Xeneva.Mm.PmmOps

/-!
# Counters and validation

Where the blocks are in order the counts are the sizes of the sets, and `AuPmmngrValidate`
succeeds exactly if no list lies behind the table of list heads.
-/

namespace Xeneva.Pmm
open Base

variable {L : Layout} {st st' : State} {m : ℕ → List ℕ} {A hole T : Finset ℕ} {h o p x : ℕ}

/-! ## Counts -/

/-- The counters when the pages `A` are allocated. -/
def layoutStats (L : Layout) (A : Finset ℕ) : AuPmmStats :=
  let rest := (Finset.range L.total).filter fun p => p ∉ L.pool
  { managed_pages := L.pool.card + (rest.filter fun p => L.base p = .reserved).card
    free_pages := (L.pool \ A).card
    allocated_pages := A.card
    reserved_pages := (rest.filter fun p => L.base p = .reserved).card
    unmanaged_pages := (rest.filter fun p => L.base p = .unmanaged).card }

theorem Inv.isFree_iff (hi : Inv L st m A ∅) (p : ℕ) :
    isFree (st.page_desc p).state ↔ p ∈ L.pool \ A := by
  rw [Finset.mem_sdiff]
  constructor
  · intro hf
    have hpool : p ∈ L.pool := by
      by_contra hn
      rw [hi.outside p hn, L.base_free] at hf
      cases hf
    refine ⟨hpool, fun hA => ?_⟩
    have ha := hi.isAlloc_of_mem hA
    cases hs : (st.page_desc p).state <;> rw [hs] at hf ha <;> cases hf <;> cases ha
  · rintro ⟨hpool, hA⟩
    obtain ⟨hm, hpb⟩ := hi.free p hpool (Finset.notMem_empty p) hA
    exact hi.isFree_listed hm hpb

theorem Inv.isAlloc_iff (hi : Inv L st m A ∅) (p : ℕ) :
    isAlloc (st.page_desc p).state ↔ p ∈ A := by
  refine ⟨fun ha => ?_, hi.isAlloc_of_mem⟩
  by_contra hA
  by_cases hpool : p ∈ L.pool
  · have hf := (hi.isFree_iff p).mpr (Finset.mem_sdiff.mpr ⟨hpool, hA⟩)
    cases hs : (st.page_desc p).state <;> rw [hs] at hf ha <;> cases hf <;> cases ha
  · rw [hi.outside p hpool, L.base_alloc] at ha
    cases ha

theorem countPages_eq (st : State) (f : PmmPageState → Bool) {S : Finset ℕ}
    (hS : ∀ p, p < st.total_pages → (f (st.page_desc p).state ↔ p ∈ S))
    (hlt : ∀ p ∈ S, p < st.total_pages) : countPages st f = S.card := by
  rw [countPages, Nat.count_eq_card_filter_range]
  congr 1
  ext p
  rw [Finset.mem_filter, Finset.mem_range]
  constructor
  · rintro ⟨hp, hf⟩
    exact (hS p hp).mp hf
  · intro hp
    exact ⟨hlt p hp, (hS p (hlt p hp)).mpr hp⟩

/-- A state that is neither free nor allocated occurs outside the pool alone. -/
theorem Inv.base_iff (hi : Inv L st m A ∅) {s : PmmPageState} (hf : isFree s = false)
    (ha : isAlloc s = false) (hp : p < st.total_pages) :
    (st.page_desc p).state = s ↔
      p ∈ ((Finset.range L.total).filter fun p => p ∉ L.pool).filter fun p => L.base p = s := by
  rw [Finset.mem_filter, Finset.mem_filter, Finset.mem_range, ← hi.total]
  by_cases hpool : p ∈ L.pool
  · refine iff_of_false (fun hs => ?_) fun hc => hc.1.2 hpool
    by_cases hA : p ∈ A
    · have := (hi.isAlloc_iff p).mpr hA
      rw [hs, ha] at this
      cases this
    · have := (hi.isFree_iff p).mpr (Finset.mem_sdiff.mpr ⟨hpool, hA⟩)
      rw [hs, hf] at this
      cases this
  · rw [hi.outside p hpool]
    exact ⟨fun hs => ⟨⟨hp, hpool⟩, hs⟩, fun hc => hc.2⟩

theorem Inv.counted (hi : Inv L st m A ∅) : counted st = layoutStats L A := by
  have hpool : ∀ p ∈ L.pool, p < st.total_pages := fun p hp => by
    rw [hi.total]
    exact L.pool_lt p hp
  have hbase : ∀ s, ∀ p ∈ ((Finset.range L.total).filter fun p => p ∉ L.pool).filter
      fun p => L.base p = s, p < st.total_pages := fun s p hp => by
    rw [hi.total]
    exact Finset.mem_range.mp (Finset.mem_filter.mp (Finset.mem_filter.mp hp).1).1
  have hres := countPages_eq st (fun s => s = .reserved)
    (fun p hp => by rw [decide_eq_true_eq]; exact hi.base_iff rfl rfl hp) (hbase .reserved)
  have hun := countPages_eq st (fun s => s = .unmanaged)
    (fun p hp => by rw [decide_eq_true_eq]; exact hi.base_iff rfl rfl hp) (hbase .unmanaged)
  have hfree := countPages_eq st isFree (fun p _ => hi.isFree_iff p)
    fun p hp => hpool p (Finset.mem_sdiff.mp hp).1
  have halloc := countPages_eq st isAlloc (fun p _ => hi.isAlloc_iff p)
    fun p hp => hpool p (hi.alloc_sub hp)
  have hman : countPages st (fun s => s ≠ .unmanaged) = L.pool.card +
      (((Finset.range L.total).filter fun p => p ∉ L.pool).filter
        fun p => L.base p = .reserved).card := by
    rw [countPages_eq st (fun s => s ≠ .unmanaged) (S := L.pool ∪
      (((Finset.range L.total).filter fun p => p ∉ L.pool).filter fun p => L.base p = .reserved)),
      Finset.card_union_of_disjoint]
    · rw [Finset.disjoint_left]
      intro p hp hn
      exact (Finset.mem_filter.mp (Finset.mem_filter.mp hn).1).2 hp
    · intro p hp
      rw [decide_eq_true_eq, Finset.mem_union, ← hi.base_iff rfl rfl hp]
      by_cases hpl : p ∈ L.pool
      · refine iff_of_true (fun hs => ?_) (.inl hpl)
        have hn := (hi.base_iff (s := .unmanaged) rfl rfl hp).mp hs
        exact (Finset.mem_filter.mp (Finset.mem_filter.mp hn).1).2 hpl
      · rw [hi.outside p hpl]
        have hf := L.base_free p
        have ha := L.base_alloc p
        cases hs : L.base p <;> rw [hs] at hf ha <;> simp_all [isFree, isAlloc]
    · intro p hp
      rcases Finset.mem_union.mp hp with hp | hp
      · exact hpool p hp
      · exact hbase _ p hp
  simp only [Pmm.counted, hman, hfree, halloc, hres, hun, layoutStats]

/-! ## The walk along the lists -/

/-- The blocks at `l` are marked as seen. -/
def State.mark (st : State) (l : List ℕ) : State :=
  { st with page_desc := fun p =>
      if p ∈ l then { st.page_desc p with validation_epoch := st.validation_epoch }
      else st.page_desc p }

theorem State.mark_desc (st : State) (l : List ℕ) (p : ℕ) :
    ((st.mark l).page_desc p).data = (st.page_desc p).data ∧
      ((st.mark l).page_desc p).next = (st.page_desc p).next ∧
      ((st.mark l).page_desc p).prev = (st.page_desc p).prev := by
  simp only [State.mark]
  split_ifs
  · exact ⟨rfl, rfl, rfl⟩
  · exact ⟨rfl, rfl, rfl⟩

theorem State.mark_epoch (st : State) (l : List ℕ) (p : ℕ) :
    ((st.mark l).page_desc p).validation_epoch =
      if p ∈ l then st.validation_epoch else (st.page_desc p).validation_epoch := by
  simp only [State.mark]
  split_ifs <;> rfl

theorem State.mark_nil (st : State) : st.mark [] = st := by
  simp [State.mark]

theorem State.mark_append (st : State) (l l' : List ℕ) :
    (st.mark l).mark l' = st.mark (l ++ l') := by
  simp only [State.mark, State.mk.injEq, and_true]
  funext p
  by_cases hp : p ∈ l <;> by_cases hp' : p ∈ l' <;> simp [hp, hp']

theorem State.setDesc_eq_mark (st : State) (h : ℕ) :
    st.setDesc h { st.page_desc h with validation_epoch := st.validation_epoch } =
      st.mark [h] := by
  simp only [State.setDesc, State.mark, State.mk.injEq, and_true, List.mem_singleton]
  funext p
  by_cases hp : p = h
  · rw [hp, Function.update_self, if_pos rfl]
  · rw [Function.update_of_ne hp, if_neg hp]

theorem Inv.mark (hi : Inv L st m A hole) (l : List ℕ) : Inv L (st.mark l) m A hole :=
  hi.congr rfl rfl (fun p _ => .of_data (st.mark_desc l p).1) fun p _ => (st.mark_desc l p).2

/-- The walk succeeds on a list in order whose blocks bear no mark yet. -/
theorem validateList_eq {q n : ℕ} {l : List ℕ} (listed : ℕ)
    (hl : Linked PMM_NO_PAGE (fun p => (st.page_desc p).next) (fun p => (st.page_desc p).prev)
      q l h) (hnd : l.Nodup) (hn : l.length < n)
    (hok : ∀ b ∈ l, validPage st b ∧ isFreeHead st b o ∧ 2 ^ o ∣ b)
    (hnew : ∀ b ∈ l, (st.page_desc b).validation_epoch ≠ st.validation_epoch) :
    validateList o n st h q listed = (st.mark l, some (listed + l.length * 2 ^ o)) := by
  induction l generalizing st q h n listed with
  | nil =>
    obtain ⟨n, rfl⟩ := Nat.exists_eq_succ_of_ne_zero (Nat.ne_of_gt hn)
    rw [validateList, if_pos (show h = PMM_NO_PAGE from hl), State.mark_nil]
    simp
  | cons b l ih =>
    obtain ⟨n, rfl⟩ := Nat.exists_eq_succ_of_ne_zero (Nat.ne_of_gt (Nat.zero_lt_of_lt hn))
    obtain ⟨rfl, h0, hprev, hl⟩ := hl
    obtain ⟨hhl, hnd⟩ := List.nodup_cons.mp hnd
    obtain ⟨hv, hf, hd⟩ := hok h List.mem_cons_self
    simp only [isFreeHead, decide_eq_true_eq] at hf
    have hpass : ¬ ((st.page_desc h).validation_epoch = st.validation_epoch ∨
        (st.page_desc h).state ≠ .freeHead ∨ (st.page_desc h).owner ≠ h ∨
        (st.page_desc h).order ≠ o ∨ (st.page_desc h).prev ≠ q ∨ h % 2 ^ o ≠ 0) := by
      have := hnew h List.mem_cons_self
      have := Nat.mod_eq_zero_of_dvd hd
      simp_all
    have hdesc : ∀ c ∈ l, (st.mark [h]).page_desc c = st.page_desc c := by
      intro c hc
      have hch : c ≠ h := fun he => hhl (he ▸ hc)
      simp [State.mark, hch]
    rw [validateList, if_neg h0, if_neg (not_not.mpr hv), if_neg hpass, State.setDesc_eq_mark]
    rw [ih _ (hl.congr (fun c hc => by rw [hdesc c hc]) fun c hc => by rw [hdesc c hc]) hnd
      (Nat.lt_of_succ_lt_succ hn)]
    · rw [State.mark_append, List.singleton_append, List.length_cons]
      congr 2
      ring
    · intro c hc
      rw [isFreeHead, hdesc c hc]
      exact hok c (List.mem_cons_of_mem h hc)
    · intro c hc
      rw [hdesc c hc]
      exact hnew c (List.mem_cons_of_mem h hc)

/-- The blocks on the lists of `n` orders from `order` on. -/
def listedHeads (m : ℕ → List ℕ) (order : ℕ) : ℕ → List ℕ
  | 0 => []
  | n + 1 => m order ++ listedHeads m (order + 1) n

/-- The pages of these blocks. -/
def listedPages (m : ℕ → List ℕ) (order : ℕ) : ℕ → ℕ
  | 0 => 0
  | n + 1 => (m order).length * 2 ^ order + listedPages m (order + 1) n

theorem mem_listedHeads {order n : ℕ} :
    h ∈ listedHeads m order n ↔ ∃ r, order ≤ r ∧ r < order + n ∧ h ∈ m r := by
  induction n generalizing order with
  | zero =>
    simp only [listedHeads, List.not_mem_nil, false_iff]
    rintro ⟨r, h1, h2, -⟩
    omega
  | succ n ih =>
    rw [listedHeads, List.mem_append, ih]
    constructor
    · rintro (hm | ⟨r, h1, h2, hm⟩)
      · exact ⟨order, by omega, by omega, hm⟩
      · exact ⟨r, by omega, by omega, hm⟩
    · rintro ⟨r, h1, h2, hm⟩
      rcases Nat.eq_or_lt_of_le h1 with rfl | h1
      · exact .inl hm
      · exact .inr ⟨r, h1, by omega, hm⟩

theorem Inv.validateLists (hi : Inv L st m A ∅) (n order listed : ℕ)
    (hnew : ∀ r, order ≤ r → ∀ b ∈ m r,
      (st.page_desc b).validation_epoch ≠ st.validation_epoch) :
    validateLists n st order listed =
      (st.mark (listedHeads m order n), some (listed + listedPages m order n)) := by
  induction n generalizing st order listed with
  | zero => rw [Pmm.validateLists, listedHeads, State.mark_nil, listedPages, Nat.add_zero]
  | succ n ih =>
    have hwalk := validateList_eq listed (hi.linked order) (hi.nodup order)
      (Nat.lt_succ_of_le (hi.length_le order)) (fun b hb => by
        obtain ⟨hd, -, -, hf⟩ := hi.listed order b hb
        exact ⟨hi.valid (hi.mem_pool hb), hf.head, hd⟩) (hnew order (Nat.le_refl _))
    rw [Pmm.validateLists, hwalk]
    dsimp only
    rw [ih (hi.mark _)]
    · rw [State.mark_append, listedHeads, listedPages, Nat.add_assoc]
    · intro r hr b hb
      have hbo : b ∉ m order := fun hm => by
        have := hi.order_eq hb hm
        omega
      rw [State.mark_epoch, if_neg hbo]
      exact hnew r (by omega) b hb

theorem listedPages_eq_sum (m : ℕ → List ℕ) (order n : ℕ) :
    listedPages m order n =
      ∑ r ∈ Finset.range n, (m (order + r)).length * 2 ^ (order + r) := by
  induction n generalizing order with
  | zero => rfl
  | succ n ih =>
    rw [listedPages, ih, Finset.sum_range_succ', Nat.add_comm]
    congr 1
    refine Finset.sum_congr rfl fun r _ => ?_
    rw [Nat.add_right_comm, Nat.add_assoc]

/-- The free pages, list by list. -/
theorem Inv.free_eq_biUnion (hi : Inv L st m A ∅)
    (hhigh : ∀ r, PMM_MAX_ORDER < r → m r = []) :
    L.pool \ A = (Finset.range (PMM_MAX_ORDER + 1)).biUnion fun r =>
      (m r).toFinset.biUnion fun b => block b r := by
  ext p
  simp only [Finset.mem_sdiff, Finset.mem_biUnion, Finset.mem_range, List.mem_toFinset]
  constructor
  · rintro ⟨hp, hA⟩
    obtain ⟨hm, hpb⟩ := hi.free p hp (Finset.notMem_empty p) hA
    refine ⟨_, ?_, _, hm, hpb⟩
    by_contra hr
    rw [hhigh _ (by omega)] at hm
    cases hm
  · rintro ⟨r, -, b, hb, hpb⟩
    exact Finset.mem_sdiff.mp (hi.free_block_sub hb hpb)

/-- With no list behind the table the listed blocks are all the free pages. -/
theorem Inv.listedPages_eq (hi : Inv L st m A ∅) (hhigh : ∀ r, PMM_MAX_ORDER < r → m r = []) :
    listedPages m 0 (PMM_MAX_ORDER + 1) = (L.pool \ A).card := by
  have hpart : ∀ {b r p b' r'}, b ∈ m r → p ∈ block b r → b' ∈ m r' → p ∈ block b' r' →
      b = b' ∧ r = r' := by
    intro b r p b' r' hb hp hb' hp'
    obtain ⟨ho, hr⟩ := hi.listed_eq hb hp
    obtain ⟨ho', hr'⟩ := hi.listed_eq hb' hp'
    exact ⟨ho.symm.trans ho', hr.symm.trans hr'⟩
  rw [hi.free_eq_biUnion hhigh, Finset.card_biUnion, listedPages_eq_sum]
  · refine Finset.sum_congr rfl fun r _ => ?_
    rw [Finset.card_biUnion, Nat.zero_add]
    · rw [Finset.sum_const_nat fun b _ => card_block b r, List.toFinset_card_of_nodup (hi.nodup r)]
    · intro b hb b' hb' hne
      rw [Function.onFun, Finset.disjoint_left]
      intro p hp hp'
      exact hne (hpart (List.mem_toFinset.mp hb) hp (List.mem_toFinset.mp hb') hp').1
  · intro r _ r' _ hne
    rw [Function.onFun, Finset.disjoint_left]
    intro p hp hp'
    rw [Finset.mem_biUnion] at hp hp'
    obtain ⟨b, hb, hpb⟩ := hp
    obtain ⟨b', hb', hpb'⟩ := hp'
    exact hne (hpart (List.mem_toFinset.mp hb) hpb (List.mem_toFinset.mp hb') hpb').2

/-! ## The outcome of the validation -/

/-- No mark is newer than the last validation. -/
structure Epochs (st : State) : Prop where
  lt : st.validation_epoch < 2 ^ 32
  le : ∀ p < st.total_pages, (st.page_desc p).validation_epoch ≤ st.validation_epoch

theorem nextEpoch_desc (st : State) (p : ℕ) :
    ((nextEpoch st).page_desc p).data = (st.page_desc p).data ∧
      ((nextEpoch st).page_desc p).next = (st.page_desc p).next ∧
      ((nextEpoch st).page_desc p).prev = (st.page_desc p).prev := by
  unfold nextEpoch
  split_ifs
  · dsimp only
    split_ifs
    · exact ⟨rfl, rfl, rfl⟩
    · exact ⟨rfl, rfl, rfl⟩
  · exact ⟨rfl, rfl, rfl⟩

theorem nextEpoch_total (st : State) : (nextEpoch st).total_pages = st.total_pages := by
  unfold nextEpoch
  split_ifs <;> rfl

theorem nextEpoch_stats (st : State) : (nextEpoch st).pmm_stats = st.pmm_stats := by
  unfold nextEpoch
  split_ifs <;> rfl

theorem nextEpoch_table (st : State) :
    (nextEpoch st).pmm_owner_table = st.pmm_owner_table := by
  unfold nextEpoch
  split_ifs <;> rfl

theorem nextEpoch_free_head (st : State) : (nextEpoch st).free_head = st.free_head := by
  unfold nextEpoch
  split_ifs <;> rfl

/-- A new epoch is newer than all marks. -/
theorem Epochs.next (he : Epochs st) :
    Epochs (nextEpoch st) ∧ ∀ p < st.total_pages,
      ((nextEpoch st).page_desc p).validation_epoch < (nextEpoch st).validation_epoch := by
  have hlt := he.lt
  have hall : (nextEpoch st).validation_epoch < 2 ^ 32 ∧ ∀ p < st.total_pages,
      ((nextEpoch st).page_desc p).validation_epoch < (nextEpoch st).validation_epoch := by
    unfold nextEpoch
    split_ifs with hw
    · refine ⟨by norm_num, fun p hp => ?_⟩
      simp only [if_pos hp]
      omega
    · refine ⟨by dsimp only; omega, fun p hp => ?_⟩
      exact Nat.lt_succ_of_le (he.le p hp)
  refine ⟨⟨hall.1, fun p hp => ?_⟩, hall.2⟩
  rw [nextEpoch_total] at hp
  exact Nat.le_of_lt (hall.2 p hp)

theorem Inv.nextEpoch (hi : Inv L st m A hole) : Inv L (nextEpoch st) m A hole :=
  hi.congr (nextEpoch_total st) (nextEpoch_free_head st)
    (fun p _ => .of_data (nextEpoch_desc st p).1) fun p _ => (nextEpoch_desc st p).2

theorem Epochs.mark (he : Epochs st) (l : List ℕ) : Epochs (st.mark l) where
  lt := he.lt
  le p hp := by
    rw [State.mark_epoch]
    split_ifs
    · exact Nat.le_refl _
    · exact he.le p hp

/-- The check of a page, where the blocks are in order. -/
theorem Inv.pageOk_iff (hi : Inv L st m A ∅) (p : ℕ) :
    pageOk st p ↔ ((st.page_desc p).state = .freeHead →
      (st.page_desc p).validation_epoch = st.validation_epoch) := by
  by_cases hfree : p ∈ L.pool \ A
  · -- a free page is in the listed block of its owner
    obtain ⟨hpool, hA⟩ := Finset.mem_sdiff.mp hfree
    obtain ⟨hm, hpb⟩ := hi.free p hpool (Finset.notMem_empty p) hA
    obtain ⟨-, -, -, hf⟩ := hi.listed _ _ hm
    obtain ⟨-, -, hs⟩ := hf p hpb
    obtain ⟨-, hr, hs'⟩ := hf _ (head_mem_block _ _)
    rw [if_pos rfl] at hs'
    have hv := hi.valid (hi.mem_pool hm)
    by_cases hph : p = (st.page_desc p).owner
    · rw [if_pos hph] at hs
      simp [pageOk, hs, ← hph]
    · rw [if_neg hph] at hs
      simp [pageOk, hs, tailOk, hv, hs', hr]
  · by_cases hA : p ∈ A
    · obtain ⟨-, hsub, hmem, ha⟩ := hi.alloc p hA
      obtain ⟨-, -, hs, hc, -⟩ := ha.pages p hmem
      obtain ⟨-, hr, hs', -⟩ := ha.pages _ (head_mem_block _ _)
      rw [if_pos rfl] at hs'
      have hv := hi.valid (hi.alloc_sub (hsub (head_mem_block _ _)))
      have hreq := ha.requested
      by_cases hph : p = (st.page_desc p).owner
      · rw [if_pos hph] at hs
        rw [← hph] at hreq
        simp [pageOk, hs, ← hph, hreq, hc]
      · rw [if_neg hph] at hs
        simp [pageOk, hs, tailOk, hv, hs', hr]
    · -- outside the pool there are neither free nor allocated pages
      have hfree' : ¬ isFree (st.page_desc p).state := fun hc => hfree ((hi.isFree_iff p).mp hc)
      have halloc' : ¬ isAlloc (st.page_desc p).state := fun hc => hA ((hi.isAlloc_iff p).mp hc)
      cases hs : (st.page_desc p).state <;> rw [hs] at hfree' halloc' <;>
        simp_all [pageOk, isFree, isAlloc]

/-- `AuPmmngrValidate` leaves the blocks as they are, and where the counters are right it
succeeds exactly if no list lies behind the table. -/
theorem Inv.validate (hi : Inv L st m A ∅) (he : Epochs st)
    (hs : st.pmm_stats = layoutStats L A) :
    ∃ st' b, auPmmngrValidate st = (st', b) ∧ (b = true ↔ ∀ r, PMM_MAX_ORDER < r → m r = []) ∧
      Inv L st' m A ∅ ∧ Epochs st' ∧ st'.pmm_stats = st.pmm_stats ∧
      st'.pmm_owner_table = st.pmm_owner_table ∧
      ∀ p, (st'.page_desc p).data = (st.page_desc p).data := by
  obtain ⟨he₁, hnew⟩ := he.next
  have hi₁ := hi.nextEpoch
  have hwalk := hi₁.validateLists (PMM_MAX_ORDER + 1) 0 0
    fun r _ b hb => Nat.ne_of_lt (hnew b (by
      rw [hi.total]
      exact L.pool_lt b (hi.mem_pool hb)))
  rw [Nat.zero_add] at hwalk
  have hi₂ := hi₁.mark (listedHeads m 0 (PMM_MAX_ORDER + 1))
  have hcount := hi₂.counted
  have hmark : ∀ p, p ∈ listedHeads m 0 (PMM_MAX_ORDER + 1) ↔
      ∃ r, r ≤ PMM_MAX_ORDER ∧ p ∈ m r := by
    intro p
    rw [mem_listedHeads]
    exact ⟨fun ⟨r, _, h2, hm⟩ => ⟨r, by omega, hm⟩, fun ⟨r, h1, hm⟩ => ⟨r, by omega, by omega, hm⟩⟩
  unfold auPmmngrValidate
  dsimp only
  rw [hwalk]
  dsimp only
  refine ⟨_, _, rfl, ?_, hi₂, he₁.mark _, ?_, ?_, fun p => ?_⟩
  · rw [decide_eq_true_eq, hcount]
    have hlen : ((Pmm.nextEpoch st).mark (listedHeads m 0 (PMM_MAX_ORDER + 1))).total_pages =
        st.total_pages := nextEpoch_total st
    constructor
    · rintro ⟨hok, -⟩ r hr
      by_contra hne
      obtain ⟨b, hb⟩ := List.exists_mem_of_ne_nil _ hne
      have hbt : b < st.total_pages := by
        rw [hi.total]
        exact L.pool_lt b (hi.mem_pool hb)
      have hbs := hok b (by rwa [hlen])
      rw [hi₂.pageOk_iff] at hbs
      obtain ⟨-, -, -, hf⟩ := hi₂.listed r b hb
      have hseen := hbs (by rw [(hf b (head_mem_block b r)).2.2, if_pos rfl])
      rw [State.mark_epoch, if_neg] at hseen
      · exact absurd hseen (Nat.ne_of_lt (hnew b hbt))
      · rw [hmark]
        rintro ⟨r', hr', hb'⟩
        have := hi.order_eq hb hb'
        omega
    · intro hhigh
      refine ⟨fun p _ => ?_, ?_, ?_, ?_⟩
      · rw [hi₂.pageOk_iff]
        intro hstate
        have hfree : isFree (((Pmm.nextEpoch st).mark
            (listedHeads m 0 (PMM_MAX_ORDER + 1))).page_desc p).state := by
          rw [hstate]
          rfl
        obtain ⟨hpool, hA⟩ := Finset.mem_sdiff.mp ((hi₂.isFree_iff p).mp hfree)
        obtain ⟨hm, hpb⟩ := hi₂.free p hpool (Finset.notMem_empty p) hA
        have hs' := ((hi₂.listed _ _ hm).2.2.2 p hpb).2.2
        rw [hstate] at hs'
        have hph : p = (((Pmm.nextEpoch st).mark
            (listedHeads m 0 (PMM_MAX_ORDER + 1))).page_desc p).owner := by
          by_contra hne
          rw [if_neg hne] at hs'
          cases hs'
        rw [← hph] at hm
        rw [State.mark_epoch, if_pos]
        · rfl
        · rw [hmark]
          refine ⟨_, ?_, hm⟩
          by_contra hr
          rw [hhigh _ (by omega)] at hm
          cases hm
      · exact hi₁.listedPages_eq hhigh
      · exact (hs.symm.trans (nextEpoch_stats st).symm :)
      · have hsplit := Finset.card_sdiff_add_card_eq_card hi.alloc_sub
        simp only [layoutStats]
        omega
  · exact nextEpoch_stats st
  · exact nextEpoch_table st
  · rw [(State.mark_desc _ _ p).1, (nextEpoch_desc st p).1]

end Xeneva.Pmm
