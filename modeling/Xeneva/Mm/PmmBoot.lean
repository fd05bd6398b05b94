import Xeneva.Mm.PmmRun

/-!
# The boot of the memory manager

From the boot map to free blocks: sorted ranges, the gaps between the reservations, and
the blocks that `add_free_range` cuts them into.
-/

namespace Xeneva.Pmm
open Base

variable {L : Layout} {st st' : State} {m : ℕ → List ℕ} {A hole : Finset ℕ} {p : ℕ}

/-! ## Ranges -/

theorem inRange_iff {r : PmmRange} : inRange r p ↔ r.first ≤ p ∧ p < r.last := by
  simp [inRange]

def covers (rs : List PmmRange) (p : ℕ) : Prop := ∃ r ∈ rs, inRange r p

theorem covers_cons {r : PmmRange} {rs : List PmmRange} :
    covers (r :: rs) p ↔ inRange r p ∨ covers rs p := by
  simp only [covers, List.mem_cons, exists_eq_or_imp]

theorem covers_append {rs rs' : List PmmRange} :
    covers (rs ++ rs') p ↔ covers rs p ∨ covers rs' p := by
  simp only [covers, List.mem_append, or_and_right, exists_or]

def Sorted (rs : List PmmRange) : Prop := rs.Pairwise fun a b => a.first ≤ b.first

theorem mem_insertRange {key r : PmmRange} {rs : List PmmRange} :
    r ∈ insertRange key rs ↔ r = key ∨ r ∈ rs := by
  induction rs with
  | nil => simp [insertRange]
  | cons a rs ih =>
    unfold insertRange
    split_ifs
    · simp only [List.mem_cons]
    · simp only [List.mem_cons, ih]
      exact or_left_comm

theorem Sorted.insertRange {rs : List PmmRange} (hs : Sorted rs) (key : PmmRange) :
    Sorted (insertRange key rs) := by
  induction rs with
  | nil => exact List.pairwise_singleton ..
  | cons a rs ih =>
    obtain ⟨ha, hs⟩ := List.pairwise_cons.mp hs
    unfold Pmm.insertRange
    split_ifs with hk
    · refine List.pairwise_cons.mpr ⟨fun b hb => ?_, List.pairwise_cons.mpr ⟨ha, hs⟩⟩
      rcases List.mem_cons.mp hb with rfl | hb
      · omega
      · have := ha b hb
        omega
    · refine List.pairwise_cons.mpr ⟨fun b hb => ?_, ih hs⟩
      rcases mem_insertRange.mp hb with rfl | hb
      · omega
      · exact ha b hb

theorem sorted_foldl (rs : List PmmRange) {l : List PmmRange} (ha : Sorted l) :
    Sorted (rs.foldl (fun sorted key => insertRange key sorted) l) ∧
      ∀ r, r ∈ rs.foldl (fun sorted key => insertRange key sorted) l ↔ r ∈ l ∨ r ∈ rs := by
  induction rs generalizing l with
  | nil => exact ⟨ha, fun r => by simp⟩
  | cons a rs ih =>
    obtain ⟨h1, h2⟩ := ih (ha.insertRange a)
    refine ⟨h1, fun r => (h2 r).trans ?_⟩
    rw [mem_insertRange, List.mem_cons]
    tauto

/-- Ranges in order with a page between each and the next. -/
def Apart (rs : List PmmRange) : Prop :=
  rs.Pairwise fun a b => a.first ≤ b.first ∧ a.last < b.first

theorem mem_coalesce {cur r : PmmRange} {rs : List PmmRange} (hr : r ∈ coalesce cur rs) :
    r.first = cur.first ∨ ∃ a ∈ rs, r.first = a.first := by
  induction rs generalizing cur with
  | nil =>
    rw [coalesce, List.mem_singleton] at hr
    exact .inl (hr ▸ rfl)
  | cons a rs ih =>
    unfold coalesce at hr
    split_ifs at hr
    · rcases ih hr with h | ⟨b, hb, h⟩
      · exact .inl h
      · exact .inr ⟨b, List.mem_cons_of_mem a hb, h⟩
    · rcases ih hr with h | ⟨b, hb, h⟩
      · exact .inl h
      · exact .inr ⟨b, List.mem_cons_of_mem a hb, h⟩
    · rcases List.mem_cons.mp hr with rfl | hr
      · exact .inl rfl
      · rcases ih hr with h | ⟨b, hb, h⟩
        · exact .inr ⟨a, List.mem_cons_self, h⟩
        · exact .inr ⟨b, List.mem_cons_of_mem a hb, h⟩

theorem coalesce_apart {cur : PmmRange} {rs : List PmmRange} (hs : Sorted (cur :: rs)) :
    Apart (coalesce cur rs) := by
  induction rs generalizing cur with
  | nil => exact List.pairwise_singleton ..
  | cons a rs ih =>
    obtain ⟨hc, hs'⟩ := List.pairwise_cons.mp hs
    obtain ⟨ha, hs''⟩ := List.pairwise_cons.mp hs'
    have hcr : ∀ b ∈ rs, cur.first ≤ b.first := fun b hb => hc b (List.mem_cons_of_mem a hb)
    unfold coalesce
    split_ifs with h1 h2
    · exact ih (List.pairwise_cons.mpr ⟨hcr, hs''⟩)
    · exact ih (List.pairwise_cons.mpr ⟨hcr, hs''⟩)
    · refine List.pairwise_cons.mpr ⟨fun b hb => ?_, ih hs'⟩
      have hca := hc a List.mem_cons_self
      rcases mem_coalesce hb with h | ⟨c, hcm, h⟩
      · omega
      · have := ha c hcm
        omega

theorem covers_coalesce {cur : PmmRange} {rs : List PmmRange} (hs : Sorted (cur :: rs)) :
    covers (coalesce cur rs) p ↔ covers (cur :: rs) p := by
  induction rs generalizing cur with
  | nil => exact Iff.rfl
  | cons a rs ih =>
    obtain ⟨hc, hs'⟩ := List.pairwise_cons.mp hs
    have hs'' := (List.pairwise_cons.mp hs').2
    have hcr : ∀ b ∈ rs, cur.first ≤ b.first := fun b hb => hc b (List.mem_cons_of_mem a hb)
    have hca := hc a List.mem_cons_self
    unfold coalesce
    split_ifs with h1 h2
    · have hs₁ : Sorted ({ cur with last := a.last } :: rs) := List.pairwise_cons.mpr ⟨hcr, hs''⟩
      rw [ih hs₁]
      simp only [covers_cons, inRange_iff, ← or_assoc]
      refine or_congr_left ?_
      omega
    · rw [ih (List.pairwise_cons.mpr ⟨hcr, hs''⟩)]
      simp only [covers_cons, inRange_iff, ← or_assoc]
      refine or_congr_left ?_
      omega
    · rw [covers_cons, ih hs', covers_cons (r := cur)]

def Proper (rs : List PmmRange) : Prop := ∀ r ∈ rs, r.first < r.last

theorem Proper.coalesce {cur : PmmRange} {rs : List PmmRange} (hp : Proper (cur :: rs)) :
    Proper (coalesce cur rs) := by
  induction rs generalizing cur with
  | nil => exact hp
  | cons a rs ih =>
    obtain ⟨hc, hp'⟩ := List.forall_mem_cons.mp hp
    have hrs := (List.forall_mem_cons.mp hp').2
    unfold Pmm.coalesce
    split_ifs with h1 h2
    · exact ih (List.forall_mem_cons.mpr ⟨by dsimp only; omega, hrs⟩)
    · exact ih (List.forall_mem_cons.mpr ⟨hc, hrs⟩)
    · exact List.forall_mem_cons.mpr ⟨hc, ih hp'⟩

theorem Proper.normalize {rs : List PmmRange} (hp : Proper rs) : Proper (normalize rs) := by
  have hm := (sorted_foldl rs (l := []) List.Pairwise.nil).2
  unfold Pmm.normalize
  cases hl : rs.foldl (fun sorted key => insertRange key sorted) [] with
  | nil => exact fun r hr => by cases hr
  | cons a l =>
    rw [hl] at hm
    refine Proper.coalesce fun r hr => hp r ?_
    simpa using (hm r).mp hr

theorem normalize_spec (rs : List PmmRange) :
    Apart (normalize rs) ∧ ∀ p, covers (normalize rs) p ↔ covers rs p := by
  obtain ⟨hs, hm⟩ := sorted_foldl rs (l := []) List.Pairwise.nil
  have hcov : ∀ p, covers (rs.foldl (fun sorted key => insertRange key sorted) []) p ↔
      covers rs p := fun p => by
    simp only [covers, hm, List.not_mem_nil, false_or]
  unfold normalize
  cases hl : rs.foldl (fun sorted key => insertRange key sorted) [] with
  | nil =>
    rw [hl] at hcov
    exact ⟨List.Pairwise.nil, hcov⟩
  | cons a l =>
    rw [hl] at hs hcov
    exact ⟨coalesce_apart hs, fun p => (covers_coalesce hs).trans (hcov p)⟩

theorem Apart.sorted {rs : List PmmRange} (h : Apart rs) : Sorted rs := h.imp fun hab => hab.1

/-- A gap is a part of the range, clear of the reservations. -/
theorem gaps_spec {last current : ℕ} {rs : List PmmRange} (hs : Sorted rs) (hpos : Proper rs) :
    (∀ g ∈ gaps last rs current, current ≤ g.first ∧ g.first < g.last ∧ g.last ≤ last ∧
      ∀ p, inRange g p → ¬ covers rs p) ∧
    (gaps last rs current).Pairwise fun a b => a.last ≤ b.first := by
  induction rs generalizing current with
  | nil =>
    unfold gaps
    split_ifs with h
    · refine ⟨fun g hg => ?_, List.pairwise_singleton ..⟩
      rw [List.mem_singleton] at hg
      subst hg
      refine ⟨Nat.le_refl _, h, Nat.le_refl _, ?_⟩
      rintro p - ⟨r, hr, -⟩
      cases hr
    · exact ⟨by simp, List.Pairwise.nil⟩
  | cons r rs ih =>
    obtain ⟨hr, hs⟩ := List.pairwise_cons.mp hs
    obtain ⟨hlt, hpos⟩ := List.forall_mem_cons.mp hpos
    unfold gaps
    by_cases h1 : current ≥ last
    · rw [if_pos h1]
      exact ⟨by simp, List.Pairwise.nil⟩
    rw [if_neg h1]
    by_cases h2 : r.last ≤ current
    · rw [if_pos h2]
      obtain ⟨hg, hp⟩ := @ih current hs hpos
      refine ⟨fun g hm => ?_, hp⟩
      obtain ⟨h3, h4, h5, h6⟩ := hg g hm
      refine ⟨h3, h4, h5, fun p hpg => ?_⟩
      rw [covers_cons, not_or]
      rw [inRange_iff] at hpg
      refine ⟨?_, h6 p (inRange_iff.mpr hpg)⟩
      rw [inRange_iff]
      omega
    rw [if_neg h2]
    by_cases h3 : r.first ≥ last
    · rw [if_pos h3]
      refine ⟨fun g hm => ?_, List.pairwise_singleton ..⟩
      rw [List.mem_singleton] at hm
      subst hm
      refine ⟨Nat.le_refl _, by dsimp only; omega, Nat.le_refl _, fun p hpg => ?_⟩
      rw [inRange_iff] at hpg
      rintro ⟨a, ha, hpa⟩
      rw [inRange_iff] at hpa
      dsimp only at hpg
      rcases List.mem_cons.mp ha with rfl | ha
      · omega
      · have := hr a ha
        omega
    rw [if_neg h3, if_pos (show r.last > current by omega)]
    obtain ⟨hg, hp⟩ := @ih r.last hs hpos
    have hrest : ∀ g ∈ gaps last rs r.last, current ≤ g.first ∧ g.first < g.last ∧
        g.last ≤ last ∧ ∀ p, inRange g p → ¬ covers (r :: rs) p := by
      intro g hm
      obtain ⟨h4, h5, h6, h7⟩ := hg g hm
      refine ⟨by omega, h5, h6, fun p hpg => ?_⟩
      rw [covers_cons, not_or]
      rw [inRange_iff] at hpg
      refine ⟨?_, h7 p (inRange_iff.mpr hpg)⟩
      rw [inRange_iff]
      omega
    split_ifs with h4 h5
    · refine ⟨fun g hm => ?_, ?_⟩
      · rcases List.mem_append.mp hm with hm | hm
        · rw [List.mem_singleton] at hm
          subst hm
          refine ⟨Nat.le_refl _, h4, by dsimp only; omega, fun p hpg => ?_⟩
          rw [inRange_iff] at hpg
          dsimp only at hpg
          rintro ⟨a, ha, hpa⟩
          rw [inRange_iff] at hpa
          rcases List.mem_cons.mp ha with rfl | ha
          · omega
          · have := hr a ha
            omega
        · exact hrest g hm
      · rw [List.singleton_append, List.pairwise_cons]
        refine ⟨fun g hm => ?_, hp⟩
        have := (hg g hm).1
        dsimp only
        omega
    · omega
    · rw [List.nil_append]
      exact ⟨hrest, hp⟩

/-! ## The plan -/

theorem ok_of_bind {ε α β : Type} {x : Except ε α} {f : α → Except ε β} {b : β}
    (h : (x >>= f) = .ok b) : ∃ a, x = .ok a ∧ f a = .ok b := by
  cases x with
  | error e => cases h
  | ok a => exact ⟨a, rfl, h⟩

/-- Reservations are added, never taken away, and are not empty. -/
structure Grows (t t' : Tables) : Prop where
  covers : ∀ p, covers t.reserved p → covers t'.reserved p
  proper : Proper t.reserved → Proper t'.reserved

theorem Grows.refl (t : Tables) : Grows t t := ⟨fun _ => id, id⟩

theorem Grows.trans {t t' t'' : Tables} (h : Grows t t') (h' : Grows t' t'') : Grows t t'' :=
  ⟨fun p hp => h'.covers p (h.covers p hp), fun hp => h'.proper (h.proper hp)⟩

theorem addReservation_ok {t t' : Tables} {first last : ℕ}
    (h : addReservation t first last = .ok t') :
    Grows t t' ∧ ∀ p, first ≤ p → p < last → covers t'.reserved p := by
  unfold addReservation at h
  split_ifs at h with h1 h2
  · cases h
    exact ⟨.refl t, fun p h3 h4 => absurd h4 (by omega)⟩
  · cases h
  · cases h
    refine ⟨⟨fun p hp => covers_append.mpr (.inl hp), fun hp r hr => ?_⟩, fun p h3 h4 => ?_⟩
    · rcases List.mem_append.mp hr with hr | hr
      · exact hp r hr
      · rw [List.mem_singleton] at hr
        subst hr
        dsimp only
        omega
    · exact covers_append.mpr (.inr ⟨_, List.mem_singleton_self _, inRange_iff.mpr ⟨h3, h4⟩⟩)

theorem foldlM_keeps {ε α σ : Type} {f : σ → α → Except ε σ} {R : σ → σ → Prop}
    (hrefl : ∀ s, R s s) (htrans : ∀ s t u, R s t → R t u → R s u)
    (hf : ∀ s a s', f s a = .ok s' → R s s') {l : List α} {s s' : σ}
    (h : l.foldlM f s = .ok s') : R s s' := by
  induction l generalizing s with
  | nil =>
    cases h
    exact hrefl _
  | cons a l ih =>
    rw [List.foldlM_cons] at h
    obtain ⟨t, ht, h⟩ := ok_of_bind h
    exact htrans _ _ _ (hf _ _ _ ht) (ih h)

theorem collectUefi_ok {map : List EfiMemoryDescriptor} {t t' : Tables}
    (h : collectUefi map t = .ok t') : Grows t t' := by
  refine foldlM_keeps Grows.refl (fun _ _ _ => Grows.trans) (fun s d s' hs => ?_) h
  dsimp only at hs
  have hsame : s'.reserved = s.reserved := by
    split_ifs at hs <;> cases hs <;> rfl
  exact ⟨fun p hp => by rwa [hsame], fun hp => by rwa [hsame]⟩

theorem collectRegions_ok {regions : List LBMemoryRegion} {t t' : Tables}
    (h : collectRegions regions t = .ok t') : Grows t t' := by
  refine foldlM_keeps Grows.refl (fun _ _ _ => Grows.trans) (fun s d s' hs => ?_) h
  dsimp only at hs
  have hsame : s'.reserved = s.reserved := by
    split_ifs at hs <;> cases hs <;> rfl
  exact ⟨fun p hp => by rwa [hsame], fun hp => by rwa [hsame]⟩

/-- The reservations that the boot map itself asks for. -/
theorem collectLittleboot_ok {lb : Option AuLittleBootProtocol} {t t' : Tables}
    (h : collectLittleboot lb t = .ok t') :
    Grows t t' ∧ ∃ l, lb = some l ∧ ∀ p,
      (inRange ⟨(l.device_tree_base >>> 12).toNat,
          (alignUp l.device_tree_end 4096 >>> 12).toNat⟩ p ∨
        inRange ⟨(l.initrd_start >>> 12).toNat, (alignUp l.initrd_end 4096 >>> 12).toNat⟩ p ∨
        inRange ⟨(l.littleBootStart >>> 12).toNat,
          (alignUp l.littleBootEnd 4096 >>> 12).toNat⟩ p) → covers t'.reserved p := by
  cases lb with
  | none => cases h
  | some l =>
    obtain ⟨t₁, h₁, h⟩ := ok_of_bind h
    obtain ⟨t₂, h₂, h⟩ := ok_of_bind h
    obtain ⟨t₃, h₃, h⟩ := ok_of_bind h
    obtain ⟨t₄, h₄, h₅⟩ := ok_of_bind h
    have g₁ := collectRegions_ok h₁
    obtain ⟨g₂, -⟩ := addReservation_ok h₂
    obtain ⟨g₃, c₃⟩ := addReservation_ok h₃
    obtain ⟨g₄, c₄⟩ := addReservation_ok h₄
    obtain ⟨g₅, c₅⟩ := addReservation_ok h₅
    refine ⟨g₁.trans (g₂.trans (g₃.trans (g₄.trans g₅))), l, rfl, fun p hp => ?_⟩
    rcases hp with hp | hp | hp
    · obtain ⟨h1, h2⟩ := inRange_iff.mp hp
      exact (g₄.trans g₅).covers p (c₃ p h1 h2)
    · obtain ⟨h1, h2⟩ := inRange_iff.mp hp
      exact g₅.covers p (c₄ p h1 h2)
    · obtain ⟨h1, h2⟩ := inRange_iff.mp hp
      exact c₅ p h1 h2

theorem collectMap_ok {info : KernelBootInfo} {t : Tables} (h : collectMap info = .ok t) :
    Grows {} t := by
  unfold collectMap at h
  cases hb : info.boot with
  | uefi map =>
    rw [hb] at h
    exact collectUefi_ok h
  | littleboot lb =>
    rw [hb] at h
    exact (collectLittleboot_ok h).1

theorem reservedMem_ok {mem : List UInt64} {t t' : Tables}
    (h : mem.foldlM (fun (t : Tables) (address : UInt64) =>
      addReservation t (address >>> 12).toNat ((address >>> 12).toNat + 1)) t = .ok t') :
    Grows t t' ∧ ∀ a ∈ mem, covers t'.reserved (a >>> 12).toNat := by
  induction mem generalizing t with
  | nil =>
    cases h
    exact ⟨.refl _, fun a ha => by cases ha⟩
  | cons a mem ih =>
    rw [List.foldlM_cons] at h
    obtain ⟨t₁, h₁, h⟩ := ok_of_bind h
    obtain ⟨g₁, c₁⟩ := addReservation_ok h₁
    obtain ⟨g₂, c₂⟩ := ih h
    refine ⟨g₁.trans g₂, List.forall_mem_cons.mpr ⟨?_, c₂⟩⟩
    exact g₂.covers _ (c₁ _ (Nat.le_refl _) (Nat.lt_succ_self _))

/-- What the plan is good for: its ranges are in order, and it covers what is kept back. -/
structure PlanOk (info : KernelBootInfo) (plan : Plan) : Prop where
  usable : Apart plan.usable
  reserved : Apart plan.reserved
  proper : Proper plan.reserved
  kept : ∀ p, keptBack info plan p → covers plan.reserved p
  total : plan.total_pages < PMM_NO_PAGE

theorem planMemory_ok {info : KernelBootInfo} {plan : Plan} (h : planMemory info = .ok plan) :
    PlanOk info plan := by
  unfold planMemory at h
  obtain ⟨t₁, h₁, h⟩ := ok_of_bind h
  dsimp only at h
  split_ifs at h with hno
  · cases h
  obtain ⟨t₂, h₂, h⟩ := ok_of_bind h
  obtain ⟨t₃, h₃, h⟩ := ok_of_bind h
  split at h
  · cases h
  rename_i start hstart
  obtain ⟨t₄, h₄, h⟩ := ok_of_bind h
  split_ifs at h with hmap
  · cases h
  cases h
  have g₁ := collectMap_ok h₁
  obtain ⟨g₂, c₂⟩ := addReservation_ok h₂
  obtain ⟨g₃, c₃⟩ := reservedMem_ok h₃
  obtain ⟨g₄, c₄⟩ := addReservation_ok h₄
  have hn₃ := normalize_spec t₃.reserved
  have hn₄ := normalize_spec t₄.reserved
  have g₃₄ : ∀ p, covers t₃.reserved p → covers (normalize t₄.reserved) p := fun p hp =>
    (hn₄.2 p).mpr (g₄.covers p ((hn₃.2 p).mpr hp))
  refine ⟨(normalize_spec _).1, hn₄.1, ?_, fun p hp => ?_, ?_⟩
  · have hp₃ : Proper t₃.reserved := (g₁.trans (g₂.trans g₃)).proper fun r hr => by cases hr
    exact (g₄.proper hp₃.normalize).normalize
  · rcases hp with hp | ⟨a, ha, rfl⟩ | hp | hp
    · exact g₃₄ p (g₃.covers p (c₂ p (Nat.zero_le p) hp))
    · exact g₃₄ _ (c₃ a ha)
    · obtain ⟨h1, h2⟩ := inRange_iff.mp hp
      exact (hn₄.2 p).mpr (c₄ p h1 h2)
    · unfold collectMap at h₁
      cases hb : info.boot with
      | uefi map =>
        rw [hb] at hp
        exact hp.elim
      | littleboot lb =>
        rw [hb] at h₁ hp
        obtain ⟨-, l, rfl, hc⟩ := collectLittleboot_ok h₁
        exact g₃₄ p ((g₂.trans g₃).covers p (hc p hp))
  · have hlt := (alignUp t₃.highest 4096).toNat_lt
    dsimp only
    rw [UInt64.toNat_shiftRight, show (12 : UInt64).toNat % 64 = 12 from rfl,
      Nat.shiftRight_eq_div_pow]
    unfold PMM_NO_PAGE
    omega

end Xeneva.Pmm
