import Xeneva.Fs.FatGrow

/-!
# Walks along a directory

Each walk goes from a cluster of a chain to the chain's end, so it ends within as many clusters
as the volume has, at an entry of the chain or with nothing found.
-/

namespace Xeneva.Fat

variable {fs : FatFS} {d d' : Disk} {cs rest : List ℕ} {c n : ℕ}

theorem Chain.suffix (pre : List ℕ) (h : Chain fs d (pre ++ c :: rest)) : Chain fs d (c :: rest) where
  cluster p hp := h.cluster p (List.mem_append_right _ hp)
  nodup := h.nodup.of_append_right
  link i a b ha hb := by
    apply h.link (pre.length + i)
    · rwa [List.getElem?_append_right (Nat.le_add_right _ _), Nat.add_sub_cancel_left]
    · rwa [List.getElem?_append_right (by omega), show pre.length + i + 1 - pre.length = i + 1 by omega]
  mark a ha := by
    apply h.mark
    rw [List.length_append, List.getElem?_append_right (by rw [List.length_cons]; omega)]
    rw [List.length_cons] at ha ⊢
    rwa [show pre.length + (rest.length + 1) - 1 - pre.length = rest.length + 1 - 1 by omega]

theorem Chain.last (h : Chain fs d [c]) : isEoc (fatReadFAT fs d c) = true := h.mark c rfl

theorem Chain.next {c' : ℕ} (h : Chain fs d (c :: c' :: rest)) : fatReadFAT fs d c = c' :=
  h.link 0 c c' rfl rfl

theorem Chain.tail {c' : ℕ} (h : Chain fs d (c :: c' :: rest)) : Chain fs d (c' :: rest) :=
  h.suffix [c]

/-- A chain is no longer than the volume. -/
theorem Chain.length_le (h : Chain fs d cs) : cs.length ≤ fs.totalClusters := by
  have hs : cs ⊆ List.range fs.totalClusters := by
    intro c hc
    exact List.mem_range.mpr (h.cluster c hc).2.1
  have := (h.nodup.subperm hs).length_le
  rwa [List.length_range] at this

theorem Layout.inTable (hl : Layout fs) (hc : fs.Cluster c) : inTable fs c = true := by
  rw [Fat.inTable, decide_eq_true_eq, hl.not_isEoc hc]
  exact ⟨hc.1, .inr hc.2.1, Bool.false_ne_true⟩

theorem FatFS.Cluster.inTable (hv : Volume fs) (hc : fs.Cluster c) : inTable fs c = true :=
  hv.layout.inTable hc

/-- A step of a walk that also stops at the clusters 0 and 1. -/
theorem Layout.go_on (hl : Layout fs) (hc : fs.Cluster c) : ¬ (isEoc c = true ∨ c < 2) := by
  rw [hl.not_isEoc hc]
  have := hc.1
  simp only [Bool.false_eq_true, false_or]
  omega

theorem FatFS.Cluster.go_on (hv : Volume fs) (hc : fs.Cluster c) : ¬ (isEoc c = true ∨ c < 2) :=
  hv.layout.go_on hc

theorem slots_cons : slots fs (c :: rest) = (places fs).map (fun x => (c, x)) ++ slots fs rest := rfl

/-! ## The walks -/

/-- The first free place of a cluster. -/
theorem slotIn_eq : slotIn fs d c = (places fs).find? fun x => freeAt fs d (c, x) := by
  rw [slotIn, places, List.find?_flatMap]
  congr 1
  funext j
  rw [List.find?_map]
  rfl

theorem slotIn_none (h : slotIn fs d c = none) :
    ∀ y ∈ (places fs).map (fun x => (c, x)), freeAt fs d y = false := by
  rw [slotIn_eq, List.find?_eq_none] at h
  intro y hy
  obtain ⟨p, hp, rfl⟩ := List.mem_map.mp hy
  exact Bool.eq_false_iff.mpr (h p hp)

theorem slotIn_some {p : ℕ × ℕ} (h : slotIn fs d c = some p) :
    ∃ pre post, (places fs).map (fun x => (c, x)) = pre ++ (c, p) :: post ∧
      (∀ y ∈ pre, freeAt fs d y = false) ∧ freeAt fs d (c, p) = true := by
  rw [slotIn_eq, List.find?_eq_some_iff_append] at h
  obtain ⟨hp, as, bs, hab, has⟩ := h
  refine ⟨as.map fun x => (c, x), bs.map fun x => (c, x), ?_, ?_, hp⟩
  · rw [hab, List.map_append, List.map_cons]
  · intro y hy
    obtain ⟨q, hq, rfl⟩ := List.mem_map.mp hy
    exact Bool.not_eq_true' _ ▸ has q hq

/-- The walk for a free place ends, and finds the first one. -/
theorem findSlot_spec (hv : Volume fs) (h : Chain fs d (c :: rest)) (hn : rest.length < n) :
    ∃ r, findSlot fs d n c = some r ∧ ∀ x, r = some x → ∃ pre post,
      slots fs (c :: rest) = pre ++ x :: post ∧ (∀ y ∈ pre, freeAt fs d y = false) ∧
        freeAt fs d x = true := by
  induction n generalizing c rest with
  | zero => exact absurd hn (Nat.not_lt_zero _)
  | succ n ih =>
    rw [findSlot]
    cases hs : slotIn fs d c with
    | some p =>
      refine ⟨_, rfl, ?_⟩
      rintro x ⟨rfl⟩
      obtain ⟨pre, post, hpp, hpre, hp⟩ := slotIn_some hs
      refine ⟨pre, post ++ slots fs rest, ?_, hpre, hp⟩
      rw [slots_cons, hpp, List.append_assoc, List.cons_append]
    | none =>
      cases rest with
      | nil => exact ⟨none, if_pos h.last, fun x hx => by cases hx⟩
      | cons c' rest =>
        have hc' := h.tail.cluster c' List.mem_cons_self
        obtain ⟨r, hr, hspec⟩ := ih h.tail (Nat.lt_of_succ_lt_succ hn)
        refine ⟨r, ?_, ?_⟩
        · have hne : ¬ isEoc c' = true := by rw [hc'.not_isEoc hv]; exact Bool.false_ne_true
          simp only [h.next, if_neg hne, hr]
        · intro x hx
          obtain ⟨pre, post, hpp, hpre, hp⟩ := hspec x hx
          refine ⟨(places fs).map (fun x => (c, x)) ++ pre, post, ?_, ?_, hp⟩
          · rw [slots_cons, hpp, List.append_assoc]
          · intro y hy
            rcases List.mem_append.mp hy with hy | hy
            · exact slotIn_none hs y hy
            · exact hpre y hy

/-- The walk that looks for an existing name ends. -/
theorem dirHas_total (hv : Volume fs) (h : Chain fs d (c :: rest)) (hn : rest.length < n)
    (name : ℕ → UInt8) : ∃ b, dirHas fs d name n c = some b := by
  induction n generalizing c rest with
  | zero => exact absurd hn (Nat.not_lt_zero _)
  | succ n ih =>
    have hin := (h.cluster c List.mem_cons_self).inTable hv
    rw [dirHas, if_neg (not_not.mpr hin)]
    cases nameIn name (entries fs d c) with
    | some b => exact ⟨b, rfl⟩
    | none =>
      cases rest with
      | nil => exact ⟨false, if_pos (.inl h.last)⟩
      | cons c' rest =>
        have hgo := (h.tail.cluster c' List.mem_cons_self).go_on hv
        obtain ⟨b, hb⟩ := ih h.tail (Nat.lt_of_succ_lt_succ hn)
        exact ⟨b, by simp only [h.next, if_neg hgo, hb]⟩

theorem clearIn_mem {sector : ℕ → Sector} {name : ℕ → UInt8} {es : List (ℕ × ℕ)} {p : ℕ × ℕ}
    (h : clearIn sector name es = some (some p)) : p ∈ es := by
  induction es with
  | nil => cases h
  | cons e es ih =>
    rw [clearIn] at h
    split_ifs at h
    · cases h
    · exact List.mem_cons_of_mem _ (ih h)
    · exact List.mem_cons_of_mem _ (ih h)
    · cases h
      exact List.mem_cons_self
    · exact List.mem_cons_of_mem _ (ih h)

/-- The walk for the entry to delete ends at an entry of the directory, if at one. -/
theorem findEntry_spec (hv : Volume fs) (h : Chain fs d (c :: rest)) (hn : rest.length < n)
    (name : ℕ → UInt8) :
    ∃ r, findEntry fs d name n c = some r ∧ ∀ x, r = some x → x ∈ slots fs (c :: rest) := by
  induction n generalizing c rest with
  | zero => exact absurd hn (Nat.not_lt_zero _)
  | succ n ih =>
    have hin := (h.cluster c List.mem_cons_self).inTable hv
    rw [findEntry, if_neg (not_not.mpr hin)]
    cases hcl : clearIn (fun j => d (fatClusterToSector32 fs c + j)) name (places fs) with
    | some found =>
      refine ⟨_, rfl, ?_⟩
      intro x hx
      obtain ⟨p, rfl, rfl⟩ := Option.map_eq_some_iff.mp hx
      rw [slots_cons]
      exact List.mem_append_left _ (List.mem_map_of_mem (clearIn_mem hcl))
    | none =>
      cases rest with
      | nil => exact ⟨none, if_pos (.inl h.last), fun x hx => by cases hx⟩
      | cons c' rest =>
        have hgo := (h.tail.cluster c' List.mem_cons_self).go_on hv
        obtain ⟨r, hr, hspec⟩ := ih h.tail (Nat.lt_of_succ_lt_succ hn)
        refine ⟨r, by simp only [h.next, if_neg hgo, hr], ?_⟩
        intro x hx
        rw [slots_cons]
        exact List.mem_append_right _ (hspec x hx)

theorem owner_of_end {s : Sector} {i : ℕ} (h : isEnd s i = true) : owner s i = none := by
  rw [isEnd, decide_eq_true_eq] at h
  rw [owner, if_pos (.inl (decide_eq_true (.inl h)))]

theorem owner_of_deleted {s : Sector} {i : ℕ} (h : isDeleted s i = true) : owner s i = none := by
  rw [isDeleted, decide_eq_true_eq] at h
  rw [owner, if_pos (.inl (decide_eq_true (.inr h)))]

theorem owner_of_dot {s : Sector} {i : ℕ} (h : s (32 * i) = 0x2E) : owner s i = none := by
  rw [owner, if_pos (.inr (.inl h))]

/-- No entry before the end mark owns anything, and none behind it does. -/
theorem emptyIn_spec (sector : ℕ → Sector) {es : List (ℕ × ℕ)} {later : List Slot}
    (hd : ∀ x, sector x.1 = sectorAt fs d (c, x))
    (hp : (es.map (fun x => (c, x)) ++ later).Pairwise fun x y =>
      endAt fs d x = true → ownerAt fs d y = none) :
    (emptyIn sector es = some true →
      ∀ x ∈ es.map (fun x => (c, x)) ++ later, ownerAt fs d x = none) ∧
    (emptyIn sector es = none → ∀ x ∈ es.map (fun x => (c, x)), ownerAt fs d x = none) := by
  induction es with
  | nil => exact ⟨fun h => (nomatch h), fun _ x hx => (nomatch hx)⟩
  | cons e es ih =>
    rw [List.map_cons, List.cons_append, List.pairwise_cons] at hp
    obtain ⟨he, hp⟩ := hp
    have ih := ih hp
    rw [List.map_cons, List.cons_append, emptyIn]
    have hnone : ∀ l : List Slot, ownerAt fs d (c, e) = none →
        (∀ x ∈ l, ownerAt fs d x = none) → ∀ x ∈ (c, e) :: l, ownerAt fs d x = none := by
      intro l h0 hl x hx
      rcases List.mem_cons.mp hx with rfl | hx
      · exact h0
      · exact hl x hx
    split_ifs with h1 h2 h3
    · rw [hd] at h1
      exact ⟨fun _ => hnone _ (owner_of_end h1) (he · · h1), fun h => nomatch h⟩
    · rw [hd] at h2
      exact ⟨fun h => hnone _ (owner_of_deleted h2) (ih.1 h),
        fun h => hnone _ (owner_of_deleted h2) (ih.2 h)⟩
    · rw [hd] at h3
      exact ⟨fun h => hnone _ (owner_of_dot h3) (ih.1 h),
        fun h => hnone _ (owner_of_dot h3) (ih.2 h)⟩
    · exact ⟨fun h => (nomatch h), fun h => (nomatch h)⟩

/-- The check ends, and an empty directory owns nothing. -/
theorem dirEmpty_spec (hv : Volume fs) (h : Chain fs d (c :: rest)) (hn : rest.length < n)
    (hp : (slots fs (c :: rest)).Pairwise fun x y => endAt fs d x = true → ownerAt fs d y = none) :
    ∃ b, dirEmpty fs d n c = some b ∧
      (b = true → ∀ x ∈ slots fs (c :: rest), ownerAt fs d x = none) := by
  induction n generalizing c rest with
  | zero => exact absurd hn (Nat.not_lt_zero _)
  | succ n ih =>
    have hin := (h.cluster c List.mem_cons_self).inTable hv
    rw [slots_cons] at hp ⊢
    rw [dirEmpty, if_neg (not_not.mpr hin)]
    obtain ⟨h1, h2⟩ := emptyIn_spec (fun j => d (fatClusterToSector32 fs c + j)) (fun _ => rfl) hp
    cases he : emptyIn (fun j => d (fatClusterToSector32 fs c + j)) (places fs) with
    | some b =>
      refine ⟨b, rfl, ?_⟩
      rintro rfl
      exact h1 he
    | none =>
      cases rest with
      | nil =>
        refine ⟨true, if_pos (.inl h.last), ?_⟩
        intro _ x hx
        rw [slots, List.flatMap_nil, List.append_nil] at hx
        exact h2 he x hx
      | cons c' rest =>
        have hgo := (h.tail.cluster c' List.mem_cons_self).go_on hv
        obtain ⟨b, hb, hspec⟩ := ih h.tail (Nat.lt_of_succ_lt_succ hn)
          (List.pairwise_append.mp hp).2.1
        refine ⟨b, by simp only [h.next, if_neg hgo, hb], ?_⟩
        intro hbt x hx
        rcases List.mem_append.mp hx with hx | hx
        · exact h2 he x hx
        · exact hspec hbt x hx

/-- The entry of the name is in the cluster, if there is one. -/
theorem entryIn_mem {name : ℕ → UInt8} {p : ℕ × ℕ} (h : entryIn fs d name c = some p) :
    p ∈ places fs := by
  obtain ⟨j, hj, hf⟩ := List.exists_of_findSome?_eq_some h
  obtain ⟨i, hi, rfl⟩ := Option.map_eq_some_iff.mp hf
  exact mem_places.mpr ⟨List.mem_range.mp hj, List.mem_range.mp (List.mem_of_find?_eq_some hi)⟩

/-- The walk ends, and writes the size of one entry at most. -/
theorem updateSizeLoop_spec (hv : Volume fs) (h : Chain fs d (c :: rest)) (hn : rest.length < n)
    (name : ℕ → UInt8) (size : ℕ) :
    ∃ d', updateSizeLoop fs d name size n c = some d' ∧ (d' = d ∨
      ∃ x ∈ slots fs (c :: rest), ∃ v, d' = writeSector d (fatClusterToSector32 fs x.1 + x.2.1)
        (write32 (sectorAt fs d x) (32 * x.2.2 + 28) v)) := by
  induction n generalizing c rest with
  | zero => exact absurd hn (Nat.not_lt_zero _)
  | succ n ih =>
    rw [updateSizeLoop]
    cases he : entryIn fs d name c with
    | some p =>
      refine ⟨_, rfl, .inr ⟨(c, p), ?_, _, rfl⟩⟩
      rw [slots_cons]
      exact List.mem_append_left _ (List.mem_map_of_mem (entryIn_mem he))
    | none =>
      cases rest with
      | nil => exact ⟨d, if_pos h.last, .inl rfl⟩
      | cons c' rest =>
        have hc' := h.tail.cluster c' List.mem_cons_self
        have hne : ¬ isEoc c' = true := by rw [hc'.not_isEoc hv]; exact Bool.false_ne_true
        obtain ⟨d', hd', hspec⟩ := ih h.tail (Nat.lt_of_succ_lt_succ hn)
        refine ⟨d', by simp only [h.next, if_neg hne, hd'], hspec.imp_right ?_⟩
        rintro ⟨x, hx, hrest⟩
        rw [slots_cons]
        exact ⟨x, List.mem_append_right _ hx, hrest⟩

/-- A table entry that is not among those that differ. -/
theorem entry_of_bytes {p : ℕ} (hb : fs.bytesPerSector = 512) (hp : p ∉ cs)
    (h : ∀ q o, (∀ k ∈ cs, ¬ InEntry fs k q o) → d' q o = d q o) :
    entry fs d' p = entry fs d p := by
  apply read32_congr
  intro o ho ho'
  apply h
  intro k hk
  have hne : k ≠ p := fun he => hp (he ▸ hk)
  rw [InEntry, fatSector, fatSector, hb]
  rw [hb] at ho ho'
  omega

/-- The chain is freed to its end: the entries keep their four bits in front, and no other byte
of the disk changes. -/
theorem freeChain_exact (hl : Layout fs) (h : Chain fs d (c :: rest)) (hn : rest.length < n) :
    ∃ d', freeChain fs n d c = some d' ∧
      (∀ p ∈ c :: rest, entry fs d' p = entry fs d p / 2 ^ 28 * 2 ^ 28) ∧
      ∀ q o, (∀ p ∈ c :: rest, ¬ InEntry fs p q o) → d' q o = d q o := by
  induction n generalizing c rest d with
  | zero => exact absurd hn (Nat.not_lt_zero _)
  | succ n ih =>
    have hself := hl.entry_alloc (d := d) (h.cluster c List.mem_cons_self) 0
    rw [Nat.zero_mod, Nat.add_zero] at hself
    rw [freeChain]
    cases rest with
    | nil =>
      refine ⟨_, if_pos (.inl h.last), ?_, ?_⟩
      · intro p hp
        rw [List.mem_singleton.mp hp, hself]
      · exact fun q o ho => byte_alloc hl.bytes _ (ho c List.mem_cons_self)
    | cons c' rest =>
      have hc' := h.tail.cluster c' List.mem_cons_self
      have hstop : ¬ (isEoc c' = true ∨ c' < 2 ∨
          (fs.totalClusters ≠ 0 ∧ fs.totalClusters ≤ c')) := by
        have h1 := hc'.1
        have h2 := hc'.2.1
        rw [hl.not_isEoc hc']
        simp only [Bool.false_eq_true, false_or]
        omega
      have hnd := List.nodup_cons.mp h.nodup
      have hkeep : ∀ p ∈ c' :: rest, entry fs (fatAllocCluster fs d c 0) p = entry fs d p := by
        intro p hp
        exact entry_alloc_ne hl.bytes _ fun he => hnd.1 (he ▸ hp)
      obtain ⟨d', hd', hfree, hother⟩ := ih (h.tail.congr hkeep) (Nat.lt_of_succ_lt_succ hn)
      refine ⟨d', by simp only [h.next, if_neg hstop, hd'], ?_, ?_⟩
      · intro p hp
        rcases List.mem_cons.mp hp with rfl | hp
        · rw [← hself]
          exact entry_of_bytes hl.bytes hnd.1 hother
        · rw [hfree p hp, hkeep p hp]
      · intro q o ho
        rw [List.forall_mem_cons] at ho
        rw [hother q o ho.2, byte_alloc hl.bytes _ ho.1]

/-- The chain is freed to its end, and nothing else changes. -/
theorem freeChain_spec (hv : Volume fs) (h : Chain fs d (c :: rest)) (hn : rest.length < n) :
    ∃ d', freeChain fs n d c = some d' ∧ (∀ p ∈ c :: rest, fatReadFAT fs d' p = 0) ∧
      (∀ p, p ∉ c :: rest → entry fs d' p = entry fs d p) ∧
      ∀ q, fs.clusterBeginLBA ≤ q → d' q = d q := by
  obtain ⟨d', hd', hfree, hother⟩ := freeChain_exact hv.layout h hn
  refine ⟨d', hd', ?_, ?_, ?_⟩
  · intro p hp
    rw [fatReadFAT_eq, hfree p hp, Nat.mul_mod_left]
  · intro p hp
    exact entry_of_bytes hv.bytes hp hother
  · intro q hq
    funext o
    apply hother
    intro k hk hin
    have := hv.fat_lt (h.cluster k hk).2.2
    rw [hin.1] at hq
    omega

end Xeneva.Fat
