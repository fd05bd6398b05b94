import Xeneva.Mm.Pmmngr

/-!
# The blocks of the memory manager

The managed pages fall apart into blocks: those on the free lists, those allocated, and a
`hole` of pages that an operation has in hand. Each write of the code is either inside the
hole or moves a whole block across its border.
-/

namespace Xeneva.Pmm
open Base

/-- What initialisation fixes: the pages that are handed out at all, and the states of the
others. -/
structure Layout where
  total : ℕ
  pool : Finset ℕ
  base : ℕ → PmmPageState
  pool_lt : ∀ p ∈ pool, p < total
  total_lt : total < PMM_NO_PAGE
  base_free : ∀ p, isFree (base p) = false
  base_alloc : ∀ p, isAlloc (base p) = false

/-- A descriptor without its links and its mark. -/
def PmmPageDesc.data (d : PmmPageDesc) : PmmPageDesc :=
  { d with next := 0, prev := 0, validation_epoch := 0 }

def FreeAt (st : State) (h o : ℕ) : Prop :=
  ∀ p ∈ block h o, (st.page_desc p).owner = h ∧ (st.page_desc p).order = o ∧
    (st.page_desc p).state = if p = h then .freeHead else .freeTail

structure AllocAt (st : State) (h o : ℕ) : Prop where
  pages : ∀ p ∈ block h o, (st.page_desc p).owner = h ∧ (st.page_desc p).order = o ∧
    (st.page_desc p).state = (if p = h then .allocHead else .allocTail) ∧
    (st.page_desc p).refcount ≠ 0 ∧ (o ≠ 0 → (st.page_desc p).refcount = 1)
  requested : (st.page_desc h).requested_pages ≠ 0
  order_le : o ≤ PMM_MAX_ORDER

/-- The free lists hold the blocks `m`, the allocated blocks cover `A`, and nothing is known
of the pages in the hole. -/
structure Inv (L : Layout) (st : State) (m : ℕ → List ℕ) (A hole : Finset ℕ) : Prop where
  total : st.total_pages = L.total
  linked : ∀ o, Linked PMM_NO_PAGE (fun p => (st.page_desc p).next)
    (fun p => (st.page_desc p).prev) PMM_NO_PAGE (m o) (st.free_head o)
  nodup : ∀ o, (m o).Nodup
  listed : ∀ o, ∀ h ∈ m o, 2 ^ o ∣ h ∧ block h o ⊆ L.pool ∧ Disjoint (block h o) hole ∧
    FreeAt st h o
  free : ∀ p ∈ L.pool, p ∉ hole → p ∉ A →
    (st.page_desc p).owner ∈ m (st.page_desc p).order ∧
      p ∈ block (st.page_desc p).owner (st.page_desc p).order
  alloc : ∀ p ∈ A, 2 ^ (st.page_desc p).order ∣ (st.page_desc p).owner ∧
    block (st.page_desc p).owner (st.page_desc p).order ⊆ A ∧
    p ∈ block (st.page_desc p).owner (st.page_desc p).order ∧
    AllocAt st (st.page_desc p).owner (st.page_desc p).order
  alloc_sub : A ⊆ L.pool
  hole_sub : hole ⊆ L.pool
  apart : Disjoint A hole
  outside : ∀ p, p ∉ L.pool → (st.page_desc p).state = L.base p

variable {L : Layout} {st st' : State} {m : ℕ → List ℕ} {A hole T : Finset ℕ} {h o p x : ℕ}

/-- Everything but the links stays outside `T`. -/
structure Frame (T : Finset ℕ) (st st' : State) : Prop where
  data : ∀ p, p ∉ T → (st'.page_desc p).data = (st.page_desc p).data
  epochs : ∀ p, (st'.page_desc p).validation_epoch = (st.page_desc p).validation_epoch
  total_pages : st'.total_pages = st.total_pages
  pmm_stats : st'.pmm_stats = st.pmm_stats
  validation_epoch : st'.validation_epoch = st.validation_epoch
  table : st'.pmm_owner_table = st.pmm_owner_table

theorem Frame.refl (T : Finset ℕ) (st : State) : Frame T st st :=
  ⟨fun _ _ => rfl, fun _ => rfl, rfl, rfl, rfl, rfl⟩

theorem Frame.trans {st'' : State} (h : Frame T st st') (h' : Frame T st' st'') :
    Frame T st st'' where
  data p hp := (h'.data p hp).trans (h.data p hp)
  epochs p := (h'.epochs p).trans (h.epochs p)
  total_pages := h'.total_pages.trans h.total_pages
  pmm_stats := h'.pmm_stats.trans h.pmm_stats
  validation_epoch := h'.validation_epoch.trans h.validation_epoch
  table := h'.table.trans h.table

theorem Frame.mono {T' : Finset ℕ} (h : Frame T st st') (hT : T ⊆ T') : Frame T' st st' :=
  { h with data := fun p hp => h.data p fun ht => hp (hT ht) }

section Data
variable {d d' : PmmPageDesc}

theorem owner_of_data (h : d'.data = d.data) : d'.owner = d.owner :=
  (congrArg PmmPageDesc.owner h :)

theorem order_of_data (h : d'.data = d.data) : d'.order = d.order :=
  (congrArg PmmPageDesc.order h :)

theorem state_of_data (h : d'.data = d.data) : d'.state = d.state :=
  (congrArg PmmPageDesc.state h :)

theorem refcount_of_data (h : d'.data = d.data) : d'.refcount = d.refcount :=
  (congrArg PmmPageDesc.refcount h :)

theorem requested_of_data (h : d'.data = d.data) : d'.requested_pages = d.requested_pages :=
  (congrArg PmmPageDesc.requested_pages h :)

theorem slot_of_data (h : d'.data = d.data) : d'.owner_slot = d.owner_slot :=
  (congrArg PmmPageDesc.owner_slot h :)

end Data

/-- Descriptors that mean the same for the blocks: the count of a single page may differ. -/
structure Alike (d d' : PmmPageDesc) : Prop where
  owner : d'.owner = d.owner
  order : d'.order = d.order
  state : d'.state = d.state
  requested : d'.requested_pages = d.requested_pages
  refcount : d.refcount ≠ 0 → d'.refcount ≠ 0
  single : d.order ≠ 0 → d'.refcount = d.refcount

theorem Alike.of_data {d d' : PmmPageDesc} (h : d'.data = d.data) : Alike d d' where
  owner := owner_of_data h
  order := order_of_data h
  state := state_of_data h
  requested := requested_of_data h
  refcount h0 := by rwa [refcount_of_data h]
  single _ := refcount_of_data h

theorem FreeAt.congr (hf : FreeAt st h o)
    (hd : ∀ p ∈ block h o, Alike (st.page_desc p) (st'.page_desc p)) : FreeAt st' h o := by
  intro p hp
  rw [(hd p hp).owner, (hd p hp).order, (hd p hp).state]
  exact hf p hp

theorem AllocAt.congr (ha : AllocAt st h o)
    (hd : ∀ p ∈ block h o, Alike (st.page_desc p) (st'.page_desc p)) : AllocAt st' h o where
  pages p hp := by
    obtain ⟨ho, hr, hs, hc, h1⟩ := ha.pages p hp
    rw [(hd p hp).owner, (hd p hp).order, (hd p hp).state]
    refine ⟨ho, hr, hs, (hd p hp).refcount hc, fun h0 => ?_⟩
    rw [(hd p hp).single (by rwa [hr])]
    exact h1 h0
  requested := by
    rw [(hd h (head_mem_block h o)).requested]
    exact ha.requested
  order_le := ha.order_le

theorem FreeAt.head (hf : FreeAt st h o) : isFreeHead st h o := by
  obtain ⟨ho, hr, hs⟩ := hf h (head_mem_block h o)
  simp [isFreeHead, ho, hr, hs]

theorem Layout.ne_no_page (L : Layout) (hp : p ∈ L.pool) : p ≠ PMM_NO_PAGE := by
  have h1 := L.pool_lt p hp
  have h2 := L.total_lt
  omega

namespace Inv

theorem valid (hi : Inv L st m A hole) (hp : p ∈ L.pool) : validPage st p := by
  simp only [validPage, hi.total, decide_eq_true_eq]
  exact L.pool_lt p hp

theorem mem_pool (hi : Inv L st m A hole) (hm : h ∈ m o) : h ∈ L.pool :=
  (hi.listed o h hm).2.1 (head_mem_block h o)

theorem not_hole (hi : Inv L st m A hole) (hm : h ∈ m o) (hp : p ∈ block h o) : p ∉ hole :=
  Finset.disjoint_left.mp (hi.listed o h hm).2.2.1 hp

/-- A page is in the listed block its descriptor names. -/
theorem listed_eq (hi : Inv L st m A hole) (hm : h ∈ m o) (hp : p ∈ block h o) :
    (st.page_desc p).owner = h ∧ (st.page_desc p).order = o :=
  let hf := (hi.listed o h hm).2.2.2 p hp
  ⟨hf.1, hf.2.1⟩

theorem order_eq (hi : Inv L st m A hole) {o' : ℕ} (hm : h ∈ m o) (hm' : h ∈ m o') : o = o' := by
  rw [← (hi.listed_eq hm (head_mem_block h o)).2, (hi.listed_eq hm' (head_mem_block h o')).2]

theorem isFree_listed (hi : Inv L st m A hole) (hm : h ∈ m o) (hp : p ∈ block h o) :
    isFree (st.page_desc p).state := by
  rw [((hi.listed o h hm).2.2.2 p hp).2.2]
  split_ifs <;> rfl

theorem isAlloc_of_mem (hi : Inv L st m A hole) (hp : p ∈ A) :
    isAlloc (st.page_desc p).state := by
  obtain ⟨-, -, hmem, ha⟩ := hi.alloc p hp
  rw [(ha.pages p hmem).2.2.1]
  split_ifs <;> rfl

theorem not_alloc (hi : Inv L st m A hole) (hm : h ∈ m o) (hp : p ∈ block h o) : p ∉ A := by
  intro hA
  have hfree := hi.isFree_listed hm hp
  have halloc := hi.isAlloc_of_mem hA
  cases hs : (st.page_desc p).state <;> rw [hs] at hfree halloc <;> cases hfree <;> cases halloc

/-- Two states with the same lists and links, and alike outside the hole. -/
theorem congr (hi : Inv L st m A hole) (ht : st'.total_pages = st.total_pages)
    (hf : st'.free_head = st.free_head)
    (hd : ∀ p, p ∉ hole → Alike (st.page_desc p) (st'.page_desc p))
    (hl : ∀ p, p ∉ hole → (st'.page_desc p).next = (st.page_desc p).next ∧
      (st'.page_desc p).prev = (st.page_desc p).prev) : Inv L st' m A hole where
  total := ht.trans hi.total
  linked r := by
    rw [hf]
    have hout : ∀ b ∈ m r, b ∉ hole := fun b hb => hi.not_hole hb (head_mem_block b r)
    exact (hi.linked r).congr (fun b hb => (hl b (hout b hb)).1) fun b hb => (hl b (hout b hb)).2
  nodup := hi.nodup
  listed r b hb := by
    obtain ⟨hdvd, hsub, hdis, hfree⟩ := hi.listed r b hb
    exact ⟨hdvd, hsub, hdis, hfree.congr fun p hp => hd p (hi.not_hole hb hp)⟩
  free p hp hh hA := by
    rw [(hd p hh).owner, (hd p hh).order]
    exact hi.free p hp hh hA
  alloc p hp := by
    have hout : ∀ q ∈ A, q ∉ hole := fun q hq => Finset.disjoint_left.mp hi.apart hq
    rw [(hd p (hout p hp)).owner, (hd p (hout p hp)).order]
    obtain ⟨hdvd, hsub, hmem, ha⟩ := hi.alloc p hp
    exact ⟨hdvd, hsub, hmem, ha.congr fun q hq => hd q (hout q (hsub hq))⟩
  alloc_sub := hi.alloc_sub
  hole_sub := hi.hole_sub
  apart := hi.apart
  outside p hp := by
    rw [(hd p fun hh => hp (hi.hole_sub hh)).state]
    exact hi.outside p hp

/-- A write to the descriptors of a block in the hole. -/
theorem forBlock (hi : Inv L st m A hole) (hb : block h o ⊆ hole)
    (f : ℕ → PmmPageDesc → PmmPageDesc) : Inv L (st.forBlock h o f) m A hole := by
  have hsame : ∀ p, p ∉ hole → (st.forBlock h o f).page_desc p = st.page_desc p := by
    intro p hp
    exact if_neg fun hc => hp (hb (mem_block.mpr hc))
  refine hi.congr rfl rfl (fun p hp => ?_) fun p hp => ?_
  · exact .of_data (by rw [hsame p hp])
  · rw [hsame p hp]
    exact ⟨rfl, rfl⟩

end Inv

/-- `mark_free_block` on a block in the hole. -/
theorem Inv.markFree (hi : Inv L st m A hole) (hb : block h o ⊆ hole) :
    ∃ st', markFreeBlock st h o = .ok st' ∧ Inv L st' m A hole ∧ FreeAt st' h o ∧
      Frame (block h o) st st' := by
  have hpool : ∀ p ∈ block h o, p < L.total := fun p hp => L.pool_lt p (hi.hole_sub (hb hp))
  have hpos := Nat.two_pow_pos o
  have hend : h + 2 ^ o ≤ st.total_pages := by
    have hlast : h + 2 ^ o - 1 ∈ block h o := by
      simp only [mem_block]
      omega
    have := hpool _ hlast
    rw [hi.total]
    omega
  have hok : ¬ (¬ validPage st h ∨ 2 ^ o > st.total_pages - h) := by
    simp only [validPage, decide_eq_true_eq]
    omega
  refine ⟨_, if_neg hok, hi.forBlock hb _, ?_, ?_⟩
  · intro p hp
    have hc : h ≤ p ∧ p < h + 2 ^ o := mem_block.mp hp
    simp only [State.forBlock, hc, and_self, if_true, true_and]
    by_cases hph : p = h
    · simp [hph]
    · rw [if_neg hph, if_neg (by omega)]
  · refine ⟨fun p hp => ?_, fun p => ?_, rfl, rfl, rfl, rfl⟩
    · have hc : ¬ (h ≤ p ∧ p < h + 2 ^ o) := fun hc => hp (mem_block.mpr hc)
      simp only [State.forBlock, hc, if_false]
    · simp only [State.forBlock]
      split_ifs <;> rfl

/-! ## The free lists -/

/-- The links of `st'` are those of `st` with `next` and `prev` for the new ones. -/
structure Relinked (st st' : State) (next prev : ℕ → ℕ) : Prop where
  data : ∀ p, (st'.page_desc p).data = (st.page_desc p).data
  epochs : ∀ p, (st'.page_desc p).validation_epoch = (st.page_desc p).validation_epoch
  next_eq : ∀ p, p ≠ PMM_NO_PAGE → (st'.page_desc p).next = next p
  prev_eq : ∀ p, p ≠ PMM_NO_PAGE → (st'.page_desc p).prev = prev p
  total_pages : st'.total_pages = st.total_pages
  pmm_stats : st'.pmm_stats = st.pmm_stats
  validation_epoch : st'.validation_epoch = st.validation_epoch
  table : st'.pmm_owner_table = st.pmm_owner_table

theorem Relinked.frame {next prev : ℕ → ℕ} (h : Relinked st st' next prev) (T : Finset ℕ) :
    Frame T st st' :=
  ⟨fun p _ => h.data p, h.epochs, h.total_pages, h.pmm_stats, h.validation_epoch, h.table⟩

theorem Relinked.refl (st : State) :
    Relinked st st (fun p => (st.page_desc p).next) fun p => (st.page_desc p).prev :=
  ⟨fun _ => rfl, fun _ => rfl, fun _ _ => rfl, fun _ _ => rfl, rfl, rfl, rfl, rfl⟩

/-- New links for one more page. -/
theorem Relinked.setDesc {next prev : ℕ → ℕ} (h : Relinked st st' next prev) (q n v : ℕ) :
    Relinked st (st'.setDesc q { st'.page_desc q with next := n, prev := v })
      (fun p => if p = q then n else next p) fun p => if p = q then v else prev p where
  data p := by
    rw [← h.data p]
    simp only [State.setDesc, Function.update_apply]
    split_ifs with hp
    · rw [hp]
      rfl
    · rfl
  epochs p := by
    rw [← h.epochs p]
    simp only [State.setDesc, Function.update_apply]
    split_ifs with hp
    · rw [hp]
    · rfl
  next_eq p hp := by
    rw [← h.next_eq p hp]
    simp only [State.setDesc, Function.update_apply]
    split_ifs <;> rfl
  prev_eq p hp := by
    rw [← h.prev_eq p hp]
    simp only [State.setDesc, Function.update_apply]
    split_ifs <;> rfl
  total_pages := h.total_pages
  pmm_stats := h.pmm_stats
  validation_epoch := h.validation_epoch
  table := h.table

theorem Relinked.setFree {next prev : ℕ → ℕ} (h : Relinked st st' next prev) (f : ℕ → ℕ) :
    Relinked st { st' with free_head := f } next prev :=
  ⟨h.data, h.epochs, h.next_eq, h.prev_eq, h.total_pages, h.pmm_stats, h.validation_epoch, h.table⟩

theorem Relinked.links {next prev next' prev' : ℕ → ℕ} (h : Relinked st st' next prev)
    (hn : ∀ p, p ≠ PMM_NO_PAGE → next p = next' p) (hp : ∀ p, p ≠ PMM_NO_PAGE → prev p = prev' p) :
    Relinked st st' next' prev' :=
  { h with
    next_eq := fun p h0 => (h.next_eq p h0).trans (hn p h0)
    prev_eq := fun p h0 => (h.prev_eq p h0).trans (hp p h0) }

theorem Relinked.setNext {next prev : ℕ → ℕ} (h : Relinked st st' next prev) (q n : ℕ) :
    Relinked st (st'.setDesc q { st'.page_desc q with next := n })
      (fun p => if p = q then n else next p) prev := by
  refine (h.setDesc q n (st'.page_desc q).prev).links (fun p _ => rfl) fun p hp => ?_
  split_ifs with hq
  · rw [← hq, h.prev_eq p hp]
  · rfl

theorem Relinked.setPrev {next prev : ℕ → ℕ} (h : Relinked st st' next prev) (q v : ℕ) :
    Relinked st (st'.setDesc q { st'.page_desc q with prev := v })
      next (fun p => if p = q then v else prev p) := by
  refine (h.setDesc q (st'.page_desc q).next v).links (fun p hp => ?_) fun p _ => rfl
  split_ifs with hq
  · rw [← hq, h.next_eq p hp]
  · rfl

theorem listInsert_ok (hf : isFreeHead st x o)
    (hv : st.free_head o ≠ PMM_NO_PAGE → validPage st (st.free_head o)) :
    ∃ st', listInsert st x o = .ok st' ∧ st'.free_head = Function.update st.free_head o x ∧
      Relinked st st' (fun p => if p = x then st.free_head o else (st.page_desc p).next)
        fun p => if p = st.free_head o then x else if p = x then PMM_NO_PAGE
          else (st.page_desc p).prev := by
  have h₁ := (Relinked.refl st).setDesc x (st.free_head o) PMM_NO_PAGE
  unfold listInsert
  rw [if_neg (not_not.mpr hf)]
  dsimp only
  generalize hs₁ : st.setDesc x { st.page_desc x with
    next := st.free_head o, prev := PMM_NO_PAGE } = s₁ at h₁ ⊢
  have hfree : s₁.free_head = st.free_head := by rw [← hs₁]; rfl
  have hok : ¬ (st.free_head o ≠ PMM_NO_PAGE ∧ ¬ validPage s₁ (st.free_head o)) := by
    rintro ⟨h0, hc⟩
    refine hc ?_
    unfold validPage
    rw [h₁.total_pages]
    exact hv h0
  rw [if_neg hok]
  by_cases h0 : st.free_head o = PMM_NO_PAGE
  · rw [if_neg (not_not.mpr h0)]
    refine ⟨_, rfl, by rw [hfree], (h₁.setFree _).links (fun p _ => rfl) fun p hp => ?_⟩
    rw [if_neg (c := p = st.free_head o) (by rwa [h0])]
  · rw [if_pos h0]
    exact ⟨_, rfl, by rw [← hfree]; rfl, (h₁.setPrev _ x).setFree _⟩

theorem unlinkPrev_ok {prev : ℕ} (next : ℕ)
    (hp : if prev = PMM_NO_PAGE then st.free_head o = x else
      validPage st prev ∧ (st.page_desc prev).next = x ∧ st.free_head o ≠ x) :
    ∃ st', unlinkPrev st x o prev next = .ok st' ∧
      st'.free_head = Function.update st.free_head o
        (if st.free_head o = x then next else st.free_head o) ∧
      Relinked st st' (fun p => if p = prev then next else (st.page_desc p).next)
        fun p => (st.page_desc p).prev := by
  unfold unlinkPrev
  by_cases h0 : prev = PMM_NO_PAGE
  · rw [if_pos h0] at hp ⊢
    rw [if_neg (not_not.mpr hp), if_pos hp]
    refine ⟨_, rfl, rfl, ((Relinked.refl st).setFree _).links (fun p hp0 => ?_) fun p _ => rfl⟩
    rw [if_neg (by rwa [h0])]
  · rw [if_neg h0] at hp ⊢
    obtain ⟨hv, hx, hne⟩ := hp
    have hok : ¬ (¬ validPage st prev ∨ (st.page_desc prev).next ≠ x) := by
      simp [hv, hx]
    rw [if_neg hok, if_neg hne, Function.update_eq_self]
    exact ⟨_, rfl, rfl, (Relinked.refl st).setNext prev next⟩

theorem unlinkNext_ok (prev : ℕ) {next : ℕ} {n v : ℕ → ℕ} (h : Relinked st st' n v)
    (hn : next ≠ PMM_NO_PAGE → validPage st next ∧ v next = x) :
    ∃ s, unlinkNext st' x prev next = .ok s ∧ s.free_head = st'.free_head ∧
      Relinked st s n fun p => if p = next then prev else v p := by
  unfold unlinkNext
  by_cases h0 : next = PMM_NO_PAGE
  · rw [if_pos h0]
    refine ⟨_, rfl, rfl, h.links (fun p _ => rfl) fun p hp0 => ?_⟩
    rw [if_neg (by rwa [h0])]
  · obtain ⟨hv, hx⟩ := hn h0
    have hok : ¬ (¬ validPage st' next ∨ (st'.page_desc next).prev ≠ x) := by
      unfold validPage at hv ⊢
      simp only [h.total_pages, hv, h.prev_eq next h0, hx, not_true_eq_false, ne_eq, or_self,
        not_false_eq_true]
    rw [if_neg h0, if_neg hok]
    exact ⟨_, rfl, rfl, h.setPrev next prev⟩

/-- Where the removed block's neighbours are in order, `list_remove` links them. -/
theorem listRemove_ok (hf : isFreeHead st x o)
    (hp : if (st.page_desc x).prev = PMM_NO_PAGE then st.free_head o = x else
      validPage st (st.page_desc x).prev ∧ (st.page_desc (st.page_desc x).prev).next = x ∧
        st.free_head o ≠ x)
    (hn : (st.page_desc x).next ≠ PMM_NO_PAGE →
      validPage st (st.page_desc x).next ∧ (st.page_desc (st.page_desc x).next).prev = x) :
    ∃ st', listRemove st x o = .ok st' ∧
      st'.free_head = Function.update st.free_head o
        (if st.free_head o = x then (st.page_desc x).next else st.free_head o) ∧
      Relinked st st' (fun p => if p = x then PMM_NO_PAGE else
          if p = (st.page_desc x).prev then (st.page_desc x).next else (st.page_desc p).next)
        fun p => if p = x then PMM_NO_PAGE else
          if p = (st.page_desc x).next then (st.page_desc x).prev else (st.page_desc p).prev := by
  obtain ⟨s₁, h₁, hfree, hl₁⟩ := unlinkPrev_ok (st.page_desc x).next hp
  obtain ⟨s₂, h₂, hfree₂, hl₂⟩ := unlinkNext_ok (st.page_desc x).prev hl₁ hn
  refine ⟨s₂.setDesc x { s₂.page_desc x with next := PMM_NO_PAGE, prev := PMM_NO_PAGE },
    ?_, hfree₂.trans hfree, hl₂.setDesc x _ _⟩
  unfold listRemove
  rw [if_neg (not_not.mpr hf)]
  dsimp only
  rw [h₁]
  dsimp only [bind, Except.bind]
  rw [h₂]

/-! ## Blocks that cross the border of the hole -/

/-- A free block in the hole goes to the front of its list. -/
theorem Inv.insert (hi : Inv L st m A hole) (hd : 2 ^ o ∣ x) (hb : block x o ⊆ hole)
    (hf : FreeAt st x o) :
    ∃ st', listInsert st x o = .ok st' ∧
      Inv L st' (Function.update m o (x :: m o)) A (hole \ block x o) ∧ Frame ∅ st st' := by
  have hxh : x ∈ hole := hb (head_mem_block x o)
  have hxp := hi.hole_sub hxh
  have hout : ∀ r, x ∉ m r := fun r hr => hi.not_hole hr (head_mem_block x r) hxh
  have hheadD := (hi.linked o).head_eq
  have hmem : st.free_head o ≠ PMM_NO_PAGE → st.free_head o ∈ m o := by
    intro h0
    rw [hheadD] at h0 ⊢
    cases hm : m o with
    | nil => rw [hm] at h0; exact absurd rfl h0
    | cons y l => simp
  obtain ⟨st', hok, hfree, hl⟩ := listInsert_ok hf.head fun h0 => hi.valid (hi.mem_pool (hmem h0))
  refine ⟨st', hok, ?_, hl.frame ∅⟩
  have hstate : ∀ p, (st'.page_desc p).state = (st.page_desc p).state :=
    fun p => state_of_data (hl.data p)
  constructor
  · exact hl.total_pages.trans hi.total
  · intro r
    rw [hfree]
    by_cases hr : r = o
    · subst hr
      rw [Function.update_self, Function.update_self]
      have hx0 := L.ne_no_page hxp
      refine (hi.linked r).push hx0 (hi.nodup r) ?_ ?_ (fun h0 => ?_) (fun b hb' => ?_)
        fun b hb' hne => ?_
      · rw [hl.next_eq x hx0, if_pos rfl]
      · rw [hl.prev_eq x hx0, if_neg, if_pos rfl]
        intro he
        exact hout r (he ▸ hmem (he ▸ hx0))
      · rw [hl.prev_eq _ h0, if_pos rfl]
      · rw [hl.next_eq b (L.ne_no_page (hi.mem_pool hb')), if_neg]
        rintro rfl
        exact hout r hb'
      · rw [hl.prev_eq b (L.ne_no_page (hi.mem_pool hb')), if_neg hne, if_neg]
        rintro rfl
        exact hout r hb'
    · rw [Function.update_of_ne hr, Function.update_of_ne hr]
      refine (hi.linked r).congr (fun b hb' => ?_) fun b hb' => ?_
      · rw [hl.next_eq b (L.ne_no_page (hi.mem_pool hb')), if_neg]
        rintro rfl
        exact hout r hb'
      · have hb0 := L.ne_no_page (hi.mem_pool hb')
        rw [hl.prev_eq b hb0, if_neg, if_neg]
        · rintro rfl
          exact hout r hb'
        · intro he
          exact hr (hi.order_eq hb' (he ▸ hmem (he ▸ hb0)))
  · intro r
    by_cases hr : r = o
    · subst hr
      rw [Function.update_self]
      exact List.nodup_cons.mpr ⟨hout r, hi.nodup r⟩
    · rw [Function.update_of_ne hr]
      exact hi.nodup r
  · intro r b hb'
    have hold : b ∈ m r → _ := fun hm => by
      obtain ⟨hdvd, hsub, hdis, hfr⟩ := hi.listed r b hm
      exact (⟨hdvd, hsub, hdis.mono_right Finset.sdiff_subset,
          hfr.congr fun p _ => .of_data (hl.data p)⟩ :
        2 ^ r ∣ b ∧ block b r ⊆ L.pool ∧ Disjoint (block b r) (hole \ block x o) ∧ FreeAt st' b r)
    by_cases hr : r = o
    · subst hr
      rw [Function.update_self] at hb'
      rcases List.mem_cons.mp hb' with rfl | hm
      · exact ⟨hd, hb.trans hi.hole_sub, Finset.disjoint_sdiff, hf.congr fun p _ => .of_data (hl.data p)⟩
      · exact hold hm
    · rw [Function.update_of_ne hr] at hb'
      exact hold hb'
  · intro p hp hh hA
    rw [owner_of_data (hl.data p), order_of_data (hl.data p)]
    by_cases hph : p ∈ hole
    · have hpb : p ∈ block x o := by
        by_contra hn
        exact hh (Finset.mem_sdiff.mpr ⟨hph, hn⟩)
      obtain ⟨ho, hr, -⟩ := hf p hpb
      rw [ho, hr, Function.update_self]
      exact ⟨List.mem_cons_self, hpb⟩
    · obtain ⟨hmem', hpb⟩ := hi.free p hp hph hA
      refine ⟨?_, hpb⟩
      by_cases hr : (st.page_desc p).order = o
      · rw [hr] at hmem' ⊢
        rw [Function.update_self]
        exact List.mem_cons_of_mem x hmem'
      · rwa [Function.update_of_ne hr]
  · intro p hp
    rw [owner_of_data (hl.data p), order_of_data (hl.data p)]
    obtain ⟨hdvd, hsub, hpb, ha⟩ := hi.alloc p hp
    exact ⟨hdvd, hsub, hpb, ha.congr fun q _ => .of_data (hl.data q)⟩
  · exact hi.alloc_sub
  · exact Finset.sdiff_subset.trans hi.hole_sub
  · exact hi.apart.mono_right Finset.sdiff_subset
  · intro p hp
    rw [hstate]
    exact hi.outside p hp

/-- A free block leaves its list and is in hand. -/
theorem Inv.remove (hi : Inv L st m A hole) (hx : x ∈ m o) :
    ∃ st', listRemove st x o = .ok st' ∧
      Inv L st' (Function.update m o ((m o).erase x)) A (hole ∪ block x o) ∧ Frame ∅ st st' := by
  obtain ⟨hdx, hsx, hdisx, hfx⟩ := hi.listed o x hx
  have hx0 := L.ne_no_page (hi.mem_pool hx)
  have hprev := (hi.linked o).prev_cases hx (hi.nodup o)
  have hnext := (hi.linked o).next_cases hx (hi.nodup o)
  have hl0 : ∀ r, ∀ b ∈ m r, b ≠ PMM_NO_PAGE := fun r b hb => L.ne_no_page (hi.mem_pool hb)
  -- neither neighbour is in another list
  have hother : ∀ r, r ≠ o → ∀ b ∈ m r,
      b ≠ x ∧ b ≠ (st.page_desc x).prev ∧ b ≠ (st.page_desc x).next := by
    intro r hr b hb
    have hne : ∀ y ∈ m o, b ≠ y := fun y hy he => hr (hi.order_eq hb (he ▸ hy))
    refine ⟨hne x hx, ?_, ?_⟩
    · rcases hprev with ⟨h0, -⟩ | ⟨hm, -⟩
      · exact fun he => hl0 r b hb (he.trans h0)
      · exact hne _ hm
    · rcases hnext with h0 | ⟨hm, -⟩
      · exact fun he => hl0 r b hb (he.trans h0)
      · exact hne _ hm
  obtain ⟨st', hok, hfree, hl⟩ := listRemove_ok hfx.head (by
    rcases hprev with ⟨h0, hh⟩ | ⟨hm, -, hnx, hh⟩
    · rw [if_pos h0]
      exact hh
    · rw [if_neg (hl0 o _ hm)]
      exact ⟨hi.valid (hi.mem_pool hm), hnx, hh⟩) (by
    rcases hnext with h0 | ⟨hm, -, hpv⟩
    · exact fun hne => absurd h0 hne
    · exact fun _ => ⟨hi.valid (hi.mem_pool hm), hpv⟩)
  refine ⟨st', hok, ?_, hl.frame ∅⟩
  have hsub : ∀ r b, b ∈ Function.update m o ((m o).erase x) r ↔ b ∈ m r ∧ b ≠ x := by
    intro r b
    by_cases hr : r = o
    · subst hr
      rw [Function.update_self, (hi.nodup r).mem_erase_iff, and_comm]
    · rw [Function.update_of_ne hr]
      exact (and_iff_left_of_imp fun hb => (hother r hr b hb).1).symm
  constructor
  · exact hl.total_pages.trans hi.total
  · intro r
    rw [hfree]
    by_cases hr : r = o
    · subst hr
      rw [Function.update_self, Function.update_self]
      refine (hi.linked r).erase hx (hi.nodup r) (fun hm => hl0 r _ hm rfl)
        (fun b hb hbx => ?_) fun b hb hbx => ?_
      · rw [hl.next_eq b (hl0 r b hb), if_neg hbx]
      · rw [hl.prev_eq b (hl0 r b hb), if_neg hbx]
    · rw [Function.update_of_ne hr, Function.update_of_ne hr]
      refine (hi.linked r).congr (fun b hb => ?_) fun b hb => ?_
      · rw [hl.next_eq b (hl0 r b hb), if_neg (hother r hr b hb).1, if_neg (hother r hr b hb).2.1]
      · rw [hl.prev_eq b (hl0 r b hb), if_neg (hother r hr b hb).1, if_neg (hother r hr b hb).2.2]
  · intro r
    by_cases hr : r = o
    · subst hr
      rw [Function.update_self]
      exact (hi.nodup r).erase x
    · rw [Function.update_of_ne hr]
      exact hi.nodup r
  · intro r b hb
    obtain ⟨hbm, hbx⟩ := (hsub r b).mp hb
    obtain ⟨hd, hs, hdis, hf⟩ := hi.listed r b hbm
    refine ⟨hd, hs, Finset.disjoint_union_right.mpr ⟨hdis, ?_⟩, hf.congr fun p _ => .of_data (hl.data p)⟩
    rw [Finset.disjoint_left]
    intro p hp hpx
    exact hbx ((hi.listed_eq hbm hp).1.symm.trans (hi.listed_eq hx hpx).1)
  · intro p hp hh hA
    rw [Finset.mem_union, not_or] at hh
    rw [owner_of_data (hl.data p), order_of_data (hl.data p)]
    obtain ⟨hm, hpb⟩ := hi.free p hp hh.1 hA
    refine ⟨(hsub _ _).mpr ⟨hm, fun he => hh.2 ?_⟩, hpb⟩
    rw [he] at hm hpb
    rwa [hi.order_eq hm hx] at hpb
  · intro p hp
    rw [owner_of_data (hl.data p), order_of_data (hl.data p)]
    obtain ⟨hd, hs, hpb, ha⟩ := hi.alloc p hp
    exact ⟨hd, hs, hpb, ha.congr fun q _ => .of_data (hl.data q)⟩
  · exact hi.alloc_sub
  · exact Finset.union_subset hi.hole_sub hsx
  · rw [Finset.disjoint_union_right, Finset.disjoint_left]
    exact ⟨Finset.disjoint_left.mp hi.apart, Finset.disjoint_left.mpr
      fun p hA hpx => hi.not_alloc hx hpx hA⟩
  · intro p hp
    rw [state_of_data (hl.data p)]
    exact hi.outside p hp

/-- A block in the hole is allocated. -/
theorem Inv.fill (hi : Inv L st m A hole) (hd : 2 ^ o ∣ x) (hb : block x o ⊆ hole)
    (ha : AllocAt st x o) : Inv L st m (A ∪ block x o) (hole \ block x o) := by
  refine { hi with
    listed := fun r b hb' => ?_
    free := fun p hp hh hA => ?_
    alloc := fun p hp => ?_
    alloc_sub := Finset.union_subset hi.alloc_sub (hb.trans hi.hole_sub)
    hole_sub := Finset.sdiff_subset.trans hi.hole_sub
    apart := ?_ }
  · obtain ⟨hd', hs, hdis, hf⟩ := hi.listed r b hb'
    exact ⟨hd', hs, hdis.mono_right Finset.sdiff_subset, hf⟩
  · rw [Finset.mem_union, not_or] at hA
    exact hi.free p hp (fun hm => hh (Finset.mem_sdiff.mpr ⟨hm, hA.2⟩)) hA.1
  · rcases Finset.mem_union.mp hp with hpA | hpb
    · obtain ⟨hd', hs, hpb, ha'⟩ := hi.alloc p hpA
      exact ⟨hd', hs.trans Finset.subset_union_left, hpb, ha'⟩
    · obtain ⟨ho, hr, -⟩ := ha.pages p hpb
      rw [ho, hr]
      exact ⟨hd, Finset.subset_union_right, hpb, ha⟩
  · rw [Finset.disjoint_union_left]
    exact ⟨hi.apart.mono_right Finset.sdiff_subset, Finset.disjoint_sdiff⟩

/-- An allocated block is taken in hand. -/
theorem Inv.takeOut (hi : Inv L st m A hole) (ha : AllocAt st x o) (hb : block x o ⊆ A) :
    Inv L st m (A \ block x o) (hole ∪ block x o) := by
  refine { hi with
    listed := fun r b hb' => ?_
    free := fun p hp hh hA => ?_
    alloc := fun p hp => ?_
    alloc_sub := Finset.sdiff_subset.trans hi.alloc_sub
    hole_sub := Finset.union_subset hi.hole_sub (hb.trans hi.alloc_sub)
    apart := ?_ }
  · obtain ⟨hd, hs, hdis, hf⟩ := hi.listed r b hb'
    refine ⟨hd, hs, Finset.disjoint_union_right.mpr ⟨hdis, ?_⟩, hf⟩
    exact Finset.disjoint_left.mpr fun p hp hpx => hi.not_alloc hb' hp (hb hpx)
  · rw [Finset.mem_union, not_or] at hh
    exact hi.free p hp hh.1 fun hpA => hA (Finset.mem_sdiff.mpr ⟨hpA, hh.2⟩)
  · obtain ⟨hpA, hpx⟩ := Finset.mem_sdiff.mp hp
    obtain ⟨hd, hs, hpb, ha'⟩ := hi.alloc p hpA
    refine ⟨hd, fun q hq => Finset.mem_sdiff.mpr ⟨hs hq, fun hqx => hpx ?_⟩, hpb, ha'⟩
    -- the blocks of two pages are equal when they share a page
    obtain ⟨ho, hr, -⟩ := ha'.pages q hq
    obtain ⟨ho', hr', -⟩ := ha.pages q hqx
    rwa [← ho, ← hr, ho', hr'] at hpb
  · rw [Finset.disjoint_union_right]
    exact ⟨hi.apart.mono_left Finset.sdiff_subset, Finset.sdiff_disjoint⟩

end Xeneva.Pmm
