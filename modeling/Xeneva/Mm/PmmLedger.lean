import Xeneva.Mm.PmmOwners

/-!
# Accounts of the memory manager

Every run keeps the account of each owner at the pages of the blocks that count for it, and the
accounts of all entries add up to the pages handed out.
-/

namespace Xeneva.Pmm
open Base

variable {g : Ledger} {a : Act} {s' : Machine} {owner : ℤ} {x o : ℕ}

/-- The pages of the blocks charged to a slot. -/
def slotPages (s : Machine) (i : ℕ) : ℕ :=
  heldPages s.held fun b => (s.pmm.page_desc b.1).owner_slot = i

/-- The accounts are right, and as long as every owner has an entry each block counts for the
owner it was allocated for. -/
structure OwnersInv (g : Ledger) : Prop where
  blocks : ∃ L m A, HeldInv L m A g.machine
  table : g.machine.pmm.pmm_owner_table = tableOf (entries g.ids) (slotPages g.machine)
  slots : ∀ b ∈ g.machine.held,
    (entries g.ids)[(g.machine.pmm.page_desc b.1).owner_slot]? = some (g.charged b.1)
  nodup : g.ids.Nodup
  total : heldPages g.machine.held (fun _ => true) = g.machine.pmm.pmm_stats.allocated_pages
  few : g.ids.length ≤ PMM_OWNER_SLOTS → ∀ b ∈ g.machine.held, g.charged b.1 = g.wanted b.1

theorem HeldInv.head_unique {L : Layout} {m : ℕ → List ℕ} {A : Finset ℕ} {s : Machine}
    (hi : HeldInv L m A s) {b c : ℕ × ℕ} (hb : b ∈ s.held) (hc : c ∈ s.held) (h : c.1 = b.1) :
    c = b := by
  have hob := (hi.held_eq hb (head_mem_block b.1 b.2)).2
  have hoc := (hi.held_eq hc (head_mem_block c.1 c.2)).2
  rw [h] at hoc
  exact Prod.ext h (hoc.symm.trans hob)

theorem nodup_meet {ids : List ℤ} (h : ids.Nodup) (owner : ℤ) : (meet ids owner).Nodup := by
  unfold meet
  split_ifs with hm
  · exact h
  · rw [List.nodup_append]
    refine ⟨h, List.nodup_singleton owner, fun a ha b hb => ?_⟩
    rw [List.mem_singleton.mp hb]
    exact fun he => hm (he ▸ ha)

theorem mem_meet (ids : List ℤ) (owner : ℤ) : owner ∈ meet ids owner := by
  unfold meet
  split_ifs with hm
  · exact hm
  · simp

theorem length_le_meet (ids : List ℤ) (owner : ℤ) : ids.length ≤ (meet ids owner).length := by
  unfold meet
  split_ifs
  · exact Nat.le_refl _
  · rw [List.length_append]
    exact Nat.le_add_right ..

/-- An entry stays where it is. -/
theorem entries_meet_get {ids : List ℤ} {i : ℕ} {id : ℤ} (h : (entries ids)[i]? = some id)
    (owner : ℤ) : (entries (meet ids owner))[i]? = some id := by
  by_cases hfull : (entries ids).length = PMM_OWNER_SLOTS
  · rw [entries_meet_of_full hfull]
    exact h
  · by_cases hm : owner ∈ entries ids
    · have hmeet : meet ids owner = ids := if_pos (List.mem_of_mem_take hm)
      rw [hmeet]
      exact h
    · rw [entries_meet_of_not_full hfull hm,
        List.getElem?_append_left (List.getElem?_eq_some_iff.mp h).1]
      exact h

/-! ## Steps -/

/-- A step that touches neither the blocks that are held nor the accounts. -/
theorem OwnersInv.quiet (h : OwnersInv g) (hb : ∃ L m A, HeldInv L m A s')
    (hheld : s'.held = g.machine.held)
    (htable : s'.pmm.pmm_owner_table = g.machine.pmm.pmm_owner_table)
    (halloc : s'.pmm.pmm_stats.allocated_pages = g.machine.pmm.pmm_stats.allocated_pages)
    (hslots : ∀ b ∈ g.machine.held,
      (s'.pmm.page_desc b.1).owner_slot = (g.machine.pmm.page_desc b.1).owner_slot) :
    OwnersInv { g with machine := s' } where
  blocks := hb
  table := by
    have hpages : slotPages s' = slotPages g.machine := by
      funext i
      unfold slotPages
      rw [hheld]
      apply heldPages_congr
      intro b hm
      rw [hslots b hm]
    dsimp only
    rw [htable, h.table, hpages]
  slots b hm := by
    dsimp only at hm ⊢
    rw [hheld] at hm
    rw [hslots b hm]
    exact h.slots b hm
  nodup := h.nodup
  total := by
    dsimp only
    rw [hheld, halloc]
    exact h.total
  few hlen b hm := by
    dsimp only at hm
    rw [hheld] at hm
    exact h.few hlen b hm

/-- No block is charged to the entry that comes next. -/
theorem OwnersInv.next_unused (h : OwnersInv g) :
    slotPages g.machine (entries g.ids).length = 0 := by
  apply heldPages_eq_zero
  intro b hb
  apply decide_eq_false
  intro he
  have hlt := (List.getElem?_eq_some_iff.mp (h.slots b hb)).1
  omega

/-- A block is handed out. -/
theorem OwnersInv.taken (h : OwnersInv g) (hb : ∃ L m A, HeldInv L m A s')
    (hfresh : ∀ b ∈ g.machine.held, b.1 ≠ x) (hheld : s'.held = (x, o) :: g.machine.held)
    (htable : s'.pmm.pmm_owner_table = pmmOwnerAdd
      (pmmOwnerSlot g.machine.pmm.pmm_owner_table owner).1
      (pmmOwnerSlot g.machine.pmm.pmm_owner_table owner).2 (2 ^ o))
    (halloc : s'.pmm.pmm_stats.allocated_pages =
      g.machine.pmm.pmm_stats.allocated_pages + 2 ^ o)
    (hslot : (s'.pmm.page_desc x).owner_slot =
      (pmmOwnerSlot g.machine.pmm.pmm_owner_table owner).2)
    (hslots : ∀ b ∈ g.machine.held,
      (s'.pmm.page_desc b.1).owner_slot = (g.machine.pmm.page_desc b.1).owner_slot) :
    OwnersInv (g.give s' x owner) := by
  obtain ⟨j, hj, hcharge⟩ := pmmOwnerSlot_tableOf g.ids h.next_unused owner
  rw [← h.table] at hj
  rw [hj] at htable hslot
  refine ⟨hb, ?_, ?_, nodup_meet h.nodup owner, ?_, ?_⟩
  · have hlt := (List.getElem?_eq_some_iff.mp hcharge).1
    have hpages : slotPages s' =
        Function.update (slotPages g.machine) j (slotPages g.machine j + 2 ^ o) := by
      funext i
      have hold : heldPages g.machine.held (fun b => (s'.pmm.page_desc b.1).owner_slot = i) =
          slotPages g.machine i := by
        apply heldPages_congr
        intro b hm
        rw [hslots b hm]
      unfold slotPages at hold ⊢
      rw [hheld, heldPages_cons, hold, hslot]
      by_cases hij : j = i
      · subst hij
        rw [Function.update_self, if_pos (by simp), Nat.add_comm]
      · rw [Function.update_of_ne (Ne.symm hij), if_neg (by simpa using hij), Nat.zero_add]
    rw [show (g.give s' x owner).machine = s' from rfl, htable, pmmOwnerAdd_tableOf hlt, hpages]
    rfl
  · intro b hm
    rw [show (g.give s' x owner).machine = s' from rfl] at hm ⊢
    rw [hheld] at hm
    simp only [Ledger.give]
    rcases List.mem_cons.mp hm with rfl | hm
    · rw [Function.update_self, hslot, hcharge]
    · rw [Function.update_of_ne (hfresh b hm), hslots b hm]
      exact entries_meet_get (h.slots b hm) owner
  · simp only [Ledger.give]
    rw [hheld, heldPages_cons, h.total, halloc, if_pos rfl, Nat.add_comm]
  · intro hlen b hm
    simp only [Ledger.give] at hlen hm ⊢
    rw [hheld] at hm
    rcases List.mem_cons.mp hm with rfl | hm
    · have hall : entries (meet g.ids owner) = meet g.ids owner := List.take_of_length_le hlen
      rw [Function.update_self, Function.update_self, hall, chargee, if_pos (mem_meet g.ids owner)]
    · rw [Function.update_of_ne (hfresh b hm), Function.update_of_ne (hfresh b hm)]
      exact h.few (Nat.le_trans (length_le_meet g.ids owner) hlen) b hm

/-- A block goes back. -/
theorem OwnersInv.freed (h : OwnersInv g) (hb : ∃ L m A, HeldInv L m A s')
    (hx : (x, o) ∈ g.machine.held)
    (hheld : s'.held = g.machine.held.filter fun b => b.1 ≠ x)
    (htable : s'.pmm.pmm_owner_table = pmmOwnerDel g.machine.pmm.pmm_owner_table
      (g.machine.pmm.page_desc x).owner_slot (2 ^ o))
    (halloc : s'.pmm.pmm_stats.allocated_pages =
      g.machine.pmm.pmm_stats.allocated_pages - 2 ^ o)
    (hslots : ∀ b ∈ g.machine.held, b.1 ≠ x →
      (s'.pmm.page_desc b.1).owner_slot = (g.machine.pmm.page_desc b.1).owner_slot) :
    OwnersInv { g with machine := s' } := by
  obtain ⟨L, m, A, hi⟩ := h.blocks
  have hremove := heldPages_remove hi.nodup hx fun c hc => hi.head_unique hx hc
  have hmem : ∀ b ∈ s'.held, b ∈ g.machine.held ∧ b.1 ≠ x := by
    intro b hm
    rw [hheld] at hm
    obtain ⟨hm, hne⟩ := List.mem_filter.mp hm
    exact ⟨hm, of_decide_eq_true hne⟩
  refine ⟨hb, ?_, ?_, h.nodup, ?_, fun hlen b hm => h.few hlen b (hmem b hm).1⟩
  · have hlt := (List.getElem?_eq_some_iff.mp (h.slots _ hx)).1
    dsimp only at hlt
    generalize hj : (g.machine.pmm.page_desc x).owner_slot = j at htable hlt
    have hpages : slotPages s' =
        Function.update (slotPages g.machine) j (slotPages g.machine j - 2 ^ o) := by
      funext i
      have hsame : slotPages s' i = heldPages (g.machine.held.filter fun b => b.1 ≠ x)
          fun b => (g.machine.pmm.page_desc b.1).owner_slot = i := by
        unfold slotPages
        rw [← hheld]
        apply heldPages_congr
        intro b hm
        rw [hslots b (hmem b hm).1 (hmem b hm).2]
      have hone := hremove fun b => (g.machine.pmm.page_desc b.1).owner_slot = i
      dsimp only at hone
      rw [hsame]
      by_cases hij : j = i
      · subst hij
        rw [Function.update_self]
        rw [if_pos (decide_eq_true hj)] at hone
        exact Nat.eq_sub_of_add_eq hone
      · rw [Function.update_of_ne (Ne.symm hij)]
        rw [if_neg (by rw [hj, decide_eq_true_eq]; exact hij), Nat.add_zero] at hone
        exact hone
    dsimp only
    rw [htable, h.table, pmmOwnerDel_tableOf hlt, hpages]
  · intro b hm
    obtain ⟨hm, hne⟩ := hmem b hm
    dsimp only
    rw [hslots b hm hne]
    exact h.slots b hm
  · dsimp only
    have hone := hremove fun _ => true
    rw [if_pos rfl, h.total] at hone
    rw [hheld, halloc]
    exact Nat.eq_sub_of_add_eq hone

/-- What the ledger notes of a step that hands out no block. -/
theorem ledgerStep_of_length (h : (step g.machine a).held.length ≠ g.machine.held.length + 1) :
    ledgerStep g a = { g with machine := step g.machine a } := by
  unfold ledgerStep
  dsimp only
  split
  · exact if_neg h
  · rfl

theorem ledgerStep_of_cons {pages alignment : UInt32} {ceiling : UInt64} {type : UInt8}
    (h : (step g.machine (.alloc pages alignment ceiling type owner)).held =
      (x, o) :: g.machine.held) :
    ledgerStep g (.alloc pages alignment ceiling type owner) =
      g.give (step g.machine (.alloc pages alignment ceiling type owner)) x owner := by
  unfold ledgerStep
  dsimp only
  rw [h]
  exact if_pos (List.length_cons ..)

theorem OwnersInv.step (h : OwnersInv g) (a : Act) : OwnersInv (ledgerStep g a) := by
  obtain ⟨L, m, A, hi⟩ := h.blocks
  obtain ⟨m', A', hi', -, heff⟩ := hi.step a
  generalize hs : Pmm.step g.machine a = s' at hi' heff
  cases heff with
  | quiet a hheld htable halloc hslots =>
    rw [ledgerStep_of_length (by rw [hs, hheld]; omega), hs]
    exact h.quiet ⟨L, m', A', hi'⟩ hheld htable halloc hslots
  | taken pages alignment ceiling type owner x o hfresh hheld htable halloc hslot hslots =>
    rw [ledgerStep_of_cons (x := x) (o := o) (by rw [hs, hheld]), hs]
    exact h.taken ⟨L, m', A', hi'⟩ hfresh hheld htable halloc hslot hslots
  | freed a x o hx hheld htable halloc hslots =>
    have hle := List.length_filter_le (fun b : ℕ × ℕ => decide (b.1 ≠ x)) g.machine.held
    rw [ledgerStep_of_length (by rw [hs, hheld]; omega), hs]
    exact h.freed ⟨L, m', A', hi'⟩ hx hheld htable halloc hslots

theorem OwnersInv.ownerPages (h : OwnersInv g) (owner : ℤ) :
    auPmmOwnerPages g.machine.pmm owner =
      heldPages g.machine.held fun b => g.charged b.1 = owner := by
  by_cases hm : owner ∈ entries g.ids
  · obtain ⟨j, hj, hpages⟩ := auPmmOwnerPages_mem h.table (entries_length_le g.ids) hm
    rw [hpages]
    apply heldPages_congr
    intro b hb
    have hslot := h.slots b hb
    have hnd : (entries g.ids).Nodup := h.nodup.sublist (List.take_sublist ..)
    rw [decide_eq_decide]
    constructor
    · intro he
      rw [he, hj] at hslot
      exact (Option.some.inj hslot).symm
    · intro he
      rw [he, ← hj] at hslot
      exact ((List.getElem?_inj (List.getElem?_eq_some_iff.mp hj).1 hnd).mp hslot.symm).symm
  · rw [auPmmOwnerPages_not_mem h.table hm, heldPages_eq_zero]
    intro b hb
    apply decide_eq_false
    intro he
    exact hm (he ▸ List.mem_of_getElem? (h.slots b hb))

theorem OwnersInv.sum_pages (h : OwnersInv g) :
    (g.machine.pmm.pmm_owner_table.map PmmOwnerEntry.pages).sum =
      g.machine.pmm.pmm_stats.allocated_pages := by
  have hlen := entries_length_le g.ids
  rw [← h.total, ← sum_slots fun b => (g.machine.pmm.page_desc b).owner_slot]
  · rw [h.table, tableOf, List.map_map]
    congr 1
    apply List.map_congr_left
    intro i hi
    by_cases hlt : i < (entries g.ids).length
    · rw [Function.comp_apply, entryOf_some (List.getElem?_eq_getElem hlt)]
      rfl
    · rw [Function.comp_apply, entryOf_none (Nat.le_of_not_lt hlt)]
      symm
      apply heldPages_eq_zero
      intro b hb
      apply decide_eq_false
      intro he
      exact hlt (he ▸ (List.getElem?_eq_some_iff.mp (h.slots b hb)).1)
  · intro b hb
    exact Nat.lt_of_lt_of_le (List.getElem?_eq_some_iff.mp (h.slots b hb)).1 hlen

/-- No one is charged at boot. -/
theorem ownersInv_boot {bleed : Bool} {info : KernelBootInfo} {st : State}
    (hok : auPmmngrInitialize bleed info = .ok st) : OwnersInv { machine := boot st } := by
  obtain ⟨plan, hp, m, -, hi, -, htable⟩ := auPmmngrInitialize_held hok
  refine ⟨⟨_, m, ∅, hi⟩, ?_, nofun, List.nodup_nil, ?_, nofun⟩
  · exact htable.trans (tableOf_nil _).symm
  · exact (congrArg AuPmmStats.allocated_pages hi.stats).symm

/-- In every run the account of an owner is the pages of the blocks that count for it, and the
accounts add up to the pages handed out. Each block counts for the owner it was allocated for
unless more owners were handed blocks than the table has entries. -/
theorem exec_owners (bleed : Bool) (info : KernelBootInfo) (st : State)
    (hok : auPmmngrInitialize bleed info = .ok st) (as : List Act) :
    let g := run ledgerStep { machine := boot st } as
    (∀ owner, auPmmOwnerPages g.machine.pmm owner =
      heldPages g.machine.held fun b => g.charged b.1 = owner) ∧
    (g.machine.pmm.pmm_owner_table.map PmmOwnerEntry.pages).sum =
      g.machine.pmm.pmm_stats.allocated_pages ∧
    (g.ids.length ≤ PMM_OWNER_SLOTS → ∀ b ∈ g.machine.held, g.charged b.1 = g.wanted b.1) := by
  have h := run_invariant (I := OwnersInv) (fun _ a hi => hi.step a) as (ownersInv_boot hok)
  exact ⟨h.ownerPages, h.sum_pages, h.few⟩

/-- Two owners on the small map. -/
theorem exec_owners_small : ∃ st, auPmmngrInitialize true smallMap = .ok st ∧
    auPmmOwnerPages (run ledgerStep { machine := boot st }
      [.alloc 3 0 0 0 7, .alloc 1 0 0 0 5, .releasePages 0x104000]).machine.pmm 5 =
    heldPages (run ledgerStep { machine := boot st }
      [.alloc 3 0 0 0 7, .alloc 1 0 0 0 5, .releasePages 0x104000]).machine.held
      fun b => (run ledgerStep { machine := boot st }
        [.alloc 3 0 0 0 7, .alloc 1 0 0 0 5, .releasePages 0x104000]).charged b.1 = 5 := by
  have hok : (auPmmngrInitialize true smallMap).toBool = true := by decide +kernel
  cases h : auPmmngrInitialize true smallMap with
  | error e =>
    rw [h] at hok
    cases hok
  | ok st => exact ⟨st, rfl, (exec_owners true smallMap st h _).1 5⟩

/-! ## More owners than entries -/

theorem Inv.findBlock_isSome {L : Layout} {st : State} {m : ℕ → List ℕ} {A : Finset ℕ}
    (hi : Inv L st m A ∅) (hx : x ∈ m o) {n order : ℕ} (hle : order ≤ o) (hlt : o < order + n) :
    (Pmm.findBlock st 0 0 n order).isSome := by
  induction n generalizing order with
  | zero => omega
  | succ n ih =>
    unfold Pmm.findBlock
    rw [findFit_eq (hi.linked order) (hi.length_le order)]
    by_cases ho : order = o
    · subst ho
      obtain ⟨y, ys, hy⟩ := List.exists_cons_of_ne_nil (List.ne_nil_of_mem hx)
      rw [hy, List.find?_cons_of_pos (by simp)]
      rfl
    · split
      · rfl
      · exact ih (by omega) (by omega)

/-- A page is handed out while one is free. -/
theorem MachineInv.alloc_one {L : Layout} {m : ℕ → List ℕ} {A : Finset ℕ} {s : Machine}
    (hi : MachineInv L m A s) (hfree : s.pmm.pmm_stats.free_pages ≠ 0) (owner : ℤ) :
    ∃ x, (Pmm.step s (.alloc 1 0 0 0 owner)).held = (x, 0) :: s.held := by
  rw [hi.stats] at hfree
  obtain ⟨p, hp⟩ := Finset.card_ne_zero.mp hfree
  obtain ⟨hpool, hA⟩ := Finset.mem_sdiff.mp hp
  have hm := (hi.blocks.free p hpool (Finset.notMem_empty p) hA).1
  have hord : (s.pmm.page_desc p).order ≤ PMM_MAX_ORDER := by
    by_contra hgt
    rw [hi.high _ (Nat.lt_of_not_le hgt)] at hm
    exact List.not_mem_nil hm
  have hsome : (Pmm.findBlock s.pmm 0 0 (PMM_MAX_ORDER + 1) 0).isSome :=
    hi.blocks.findBlock_isSome hm (Nat.zero_le _) (by omega)
  obtain ⟨y, hy⟩ := Option.isSome_iff_exists.mp hsome
  obtain ⟨s₁, x, htake, -⟩ := hi.blocks.take 0 1 0
  have hx : x ≠ PMM_NO_PAGE := by
    have hhead := L.ne_no_page (hi.blocks.mem_pool (hi.blocks.findBlock hy).1)
    have hok := htake
    have hstart : orderForPages 1 = 0 := by decide
    unfold takeBlock at hok
    rw [hstart] at hok
    simp only [gt_iff_lt, Nat.lt_irrefl, if_false, Nat.sub_zero, hy] at hok
    obtain ⟨s₂, -, hok⟩ := ok_of_bind hok
    obtain ⟨s₃, -, hok⟩ := ok_of_bind hok
    cases hok
    exact hhead
  have halloc : ∃ st', auPmmngrAllocPagesForOwner s.pmm 1 0 0 0 owner =
      .ok (st', x * PAGE_SIZE) := by
    unfold auPmmngrAllocPagesForOwner
    rw [if_neg (by decide)]
    dsimp only
    rw [if_neg (by decide), if_neg (by decide)]
    have horder : orderForPages (1 : UInt32).toNat = 0 := by decide
    rw [if_pos rfl, horder, show (1 : UInt32).toNat = 1 from rfl,
      show (0 : UInt64).toNat = 0 from rfl, htake]
    dsimp only [bind, Except.bind]
    rw [if_neg hx]
    exact ⟨_, rfl⟩
  obtain ⟨st', halloc⟩ := halloc
  refine ⟨x, ?_⟩
  unfold Pmm.step
  rw [if_neg (by simp [hi.running])]
  dsimp only
  rw [halloc]
  dsimp only [Machine.take]
  rw [if_neg (by unfold PAGE_SIZE PMM_INVALID_PHYS; omega),
    Nat.mul_div_cancel _ (by unfold PAGE_SIZE; omega)]
  rfl

/-- A page for each of the owners from 0 on. -/
def oneEach (n : ℕ) : List Act := (List.range n).map fun i : ℕ => .alloc 1 0 0 0 (i : ℤ)

/-- While pages last each owner gets its own. -/
theorem run_oneEach {L : Layout} {m : ℕ → List ℕ} {s : Machine}
    (hi : MachineInv L m ∅ s) (ho : OwnersInv { machine := s }) {n : ℕ} (hn : n ≤ L.pool.card) :
    let g := run ledgerStep { machine := s } (oneEach n)
    OwnersInv g ∧ (∃ m A, MachineInv L m A g.machine) ∧
      g.machine.pmm.pmm_stats.allocated_pages = n ∧
      (g.ids = (List.range n).map fun i : ℕ => (i : ℤ)) ∧
      ∀ k : ℕ, n = k + 1 → ∃ b ∈ g.machine.held, g.wanted b.1 = k := by
  induction n with
  | zero => exact ⟨ho, ⟨m, ∅, hi⟩, congrArg AuPmmStats.allocated_pages hi.stats, rfl, nofun⟩
  | succ n ih =>
    obtain ⟨hg, ⟨m', A, hm⟩, halloc, hids, -⟩ := ih (Nat.le_of_succ_le hn)
    have hrun : run ledgerStep { machine := s } (oneEach (n + 1)) =
        ledgerStep (run ledgerStep { machine := s } (oneEach n)) (.alloc 1 0 0 0 (n : ℤ)) := by
      unfold oneEach
      rw [List.range_succ, List.map_append, run_append]
      rfl
    intro g
    have hgdef : g = ledgerStep (run ledgerStep { machine := s } (oneEach n))
      (.alloc 1 0 0 0 (n : ℤ)) := hrun
    clear_value g
    generalize run ledgerStep { machine := s } (oneEach n) = g₀ at hg hm halloc hids hgdef
    have hfree : g₀.machine.pmm.pmm_stats.free_pages ≠ 0 := by
      have hcard : A.card = n := by
        rw [← halloc, hm.stats]
        rfl
      have hsplit := Finset.card_sdiff_add_card_eq_card hm.blocks.alloc_sub
      rw [hm.stats]
      simp only [layoutStats]
      omega
    obtain ⟨x, hx⟩ := hm.alloc_one hfree n
    have hgive := ledgerStep_of_cons hx
    have hg' := hg.step (.alloc 1 0 0 0 (n : ℤ))
    have hm' := hm.step (.alloc 1 0 0 0 (n : ℤ))
    rw [← hgdef] at hg' hgive
    have hmachine : g.machine = Pmm.step g₀.machine (.alloc 1 0 0 0 (n : ℤ)) := by
      rw [hgive]
      rfl
    rw [← hmachine] at hx hm'
    refine ⟨hg', hm', ?_, ?_, fun k hk => ⟨(x, 0), ?_, ?_⟩⟩
    · rw [← hg'.total, hx, heldPages_cons, if_pos rfl, hg.total, halloc, Nat.add_comm, Nat.pow_zero]
    · have hnew : (n : ℤ) ∉ g₀.ids := by
        rw [hids]
        simp
      rw [hgive, List.range_succ, List.map_append, ← hids]
      exact if_neg hnew
    · rw [hx]
      exact List.mem_cons_self
    · rw [hgive, Nat.succ.inj hk]
      exact Function.update_self ..

/-- 2 MiB from the second megabyte on. -/
def middleMap : KernelBootInfo where
  boot := .littleboot (some ⟨[⟨0x100000, 512⟩], 0, 0, 0, 0, 0, 0⟩)
  reserved_mem := []
  physical_direct_map_size := 0

def middlePlan : Plan where
  usable := [⟨256, 768⟩]
  reserved := [⟨0, 265⟩]
  metadata := ⟨256, 265⟩
  total_pages := 768

/-- The last of 257 owners has a page, and its account is empty. -/
theorem not_exec_owners : ¬ ∀ bleed info st, auPmmngrInitialize bleed info = .ok st → ∀ as,
    let g := run ledgerStep { machine := boot st } as
    (∀ owner, auPmmOwnerPages g.machine.pmm owner =
      heldPages g.machine.held fun b => g.wanted b.1 = owner) ∧
    (g.machine.pmm.pmm_owner_table.map PmmOwnerEntry.pages).sum =
      g.machine.pmm.pmm_stats.allocated_pages := by
  intro h
  have hplan : planMemory middleMap = .ok middlePlan := by decide +kernel
  have hn : NoHugeRun middleMap := by
    intro plan hp k
    have he : plan = middlePlan := Except.ok.inj (hp.symm.trans hplan)
    refine ⟨k * 2 ^ 33, head_mem_block _ _, .inl ?_⟩
    rw [he]
    rintro ⟨r, hr, hk⟩
    rw [List.mem_singleton.mp hr, inRange_iff] at hk
    dsimp only at hk
    omega
  have hfree : (match auPmmngrInitialize true middleMap with
      | .ok st => st.pmm_stats.free_pages
      | .error _ => 0) = 503 := by decide +kernel
  cases hst : auPmmngrInitialize true middleMap with
  | error e =>
    rw [hst] at hfree
    exact absurd hfree (Nat.ne_of_lt (Nat.zero_lt_succ 502))
  | ok st =>
    rw [hst] at hfree
    dsimp only at hfree
    obtain ⟨plan, hp, m, -, hi⟩ := auPmmngrInitialize_ok hst hn
    have hcard : (planLayout hp).pool.card = 503 := by
      rw [← hfree, show st.pmm_stats = _ from hi.stats, layoutStats, Finset.sdiff_empty]
    have ho := ownersInv_boot hst
    have hrun := run_oneEach hi ho (n := 257) (by omega)
    obtain ⟨hg, -, -, hids, hlast⟩ := hrun
    have hpages := (h true middleMap st hst (oneEach 257)).1 256
    obtain ⟨b, hb, hwanted⟩ := hlast 256 rfl
    generalize run ledgerStep { machine := boot st } (oneEach 257) = g at *
    have hnot : (256 : ℤ) ∉ entries g.ids := by
      rw [hids]
      decide +kernel
    rw [auPmmOwnerPages_not_mem hg.table hnot] at hpages
    -- the account is empty, but the block is there
    have hmem : 2 ^ b.2 ∈ (g.machine.held.filter fun c => g.wanted c.1 = 256).map
        fun c => 2 ^ c.2 :=
      List.mem_map_of_mem (List.mem_filter.mpr ⟨hb, decide_eq_true hwanted⟩)
    have hpos := List.sum_pos_iff_exists_pos_nat.mpr ⟨_, hmem, Nat.two_pow_pos b.2⟩
    exact Nat.ne_of_lt hpos hpages

end Xeneva.Pmm
