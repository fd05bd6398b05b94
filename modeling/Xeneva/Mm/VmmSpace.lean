import Xeneva.Mm.VmmRun

/-!
# One user address space

The entries of a root below 256 are the address space's own; those from 256 on are the kernel's.
`userHalf` is the memory without the latter: a walk in it is a walk through the user half. What
the calls that map, unmap and change pages keep of its tables and of the frames in it.
-/

namespace Xeneva.Vmm
open Base Base.Radix

variable {ram : BitVec 64 → Prop} {mem mem' : Mem} {priv priv' : List (BitVec 64)}
  {root t u virt page phys flags desc f g : BitVec 64} {p q : List (BitVec 9)} {i : BitVec 9}

def userHalf (root : BitVec 64) (mem : Mem) : Mem :=
  fun t i => if t = root ∧ 256 ≤ i.toNat then 0 else mem t i

/-- The entry is none of the kernel's in the root. -/
def Lower (root t : BitVec 64) (i : BitVec 9) : Prop := t = root → i.toNat < 256

theorem userHalf_apply (h : Lower root t i) : userHalf root mem t i = mem t i := by
  apply if_neg
  intro hc
  exact absurd (h hc.1) (Nat.not_lt.mpr hc.2)

theorem userHalf_write (h : Lower root t i) :
    userHalf root (write mem t i desc) = write (userHalf root mem) t i desc := by
  funext t' j
  unfold userHalf write
  by_cases hc : t' = t ∧ j = i
  · obtain ⟨rfl, rfl⟩ := hc
    have hn : ¬(t' = root ∧ 256 ≤ j.toNat) := fun hc => absurd (h hc.1) (Nat.not_lt.mpr hc.2)
    simp [hn]
  · simp only [if_neg hc]

theorem userHalf_fill : userHalf root (fill mem f 0) = fill (userHalf root mem) f 0 := by
  funext t' j
  unfold userHalf fill
  by_cases hf : t' = f
  · simp only [if_pos hf, ite_self]
  · simp only [if_neg hf]

/-- `AuCreateVirtualAddressSpace`, which takes the kernel's entries over. -/
def auCreateVirtualAddressSpace (mem : Mem) (kernelRoot page : BitVec 64) : Mem :=
  fun t i =>
    if t = page then
      if i.toNat < 256 then 0 else if valid (mem kernelRoot i) then mem kernelRoot i else 0
    else mem t i

/-! ## What holds of an address space -/

/-- The tables of the user half lie in `ram`, each at one place, and no block is among their
entries; a frame of `ram` that is mapped is no table, and one of `priv` is mapped once. -/
structure SpaceInv (ram : BitVec 64 → Prop) (root : BitVec 64) (mem : Mem)
    (priv : List (BitVec 64)) : Prop where
  forest : Forest next [root] 3 (userHalf root mem)
  dirs : ∀ p i t, p.length < 3 → walk next (userHalf root mem) root p = some t →
    next (userHalf root mem t i) ≠ none → userHalf root mem t i &&& HIGH_BITS = 0
  whole : ∀ p i t, p.length ≤ 3 → walk next (userHalf root mem) root p = some t →
    valid (userHalf root mem t i) → next (userHalf root mem t i) ≠ none
  tables : ∀ p t, p.length ≤ 3 → walk next (userHalf root mem) root p = some t → ram t
  leaves : ∀ p f, p.length = 4 → walk next (userHalf root mem) root p = some f → ram f →
    Unreached next [root] 3 (userHalf root mem) f
  once : ∀ p q f, p.length = 4 → q.length = 4 → walk next (userHalf root mem) root p = some f →
    walk next (userHalf root mem) root q = some f → f ∈ priv → p = q
  ramPriv : ∀ f ∈ priv, ram f

/-- A frame that the allocator just gave: it is in no use by the address space. -/
structure Fresh (ram : BitVec 64 → Prop) (root : BitVec 64) (mem : Mem) (f : BitVec 64) : Prop where
  inRam : ram f
  aligned : f &&& VMM_PHYS_MASK = f
  unused : Unreached next [root] 4 (userHalf root mem) f

theorem Unreached.mono {k n : ℕ} (h : Unreached next [root] n mem f) (hk : k ≤ n) :
    Unreached next [root] k mem f :=
  fun r hr p hp => h r hr p (hp.trans hk)

theorem unreached_iff {n : ℕ} : Unreached next [root] n mem f ↔
    ∀ p, p.length ≤ n → walk next mem root p ≠ some f := by
  simp [Unreached]

namespace SpaceInv

variable (h : SpaceInv ram root mem priv)
include h

/-- Below the root no table is the root. -/
theorem lower (hp : p.length ≤ 3) (hne : p ≠ [])
    (hw : walk next (userHalf root mem) root p = some t) : Lower root t i := by
  intro ht
  rw [ht] at hw
  exact absurd (h.forest root (by simp) root (by simp) p [] root hp (by simp) hw rfl) hne

/-- What a write to an entry of the last level leaves of the walks. -/
theorem walk_write_leaf (hq : q.length = 3) (hw : walk next (userHalf root mem) root q = some t)
    (hp : p.length ≤ 3) :
    walk next (userHalf root (write mem t i desc)) root p =
      walk next (userHalf root mem) root p := by
  have hl : Lower root t i := h.lower hq.le (List.ne_nil_of_length_pos (by omega)) hw
  rw [userHalf_write hl]
  exact h.forest.walk_write_last (by simp) hq hw (by simp) hp

theorem frame_write_leaf (hq : q.length = 3) (hw : walk next (userHalf root mem) root q = some t)
    (hp : p.length = 4)
    (hf : walk next (userHalf root (write mem t i desc)) root p = some f) :
    (walk next (userHalf root mem) root p = some f ∧ p ≠ q ++ [i]) ∨
      (p = q ++ [i] ∧ next desc = some f) := by
  have hl : Lower root t i := h.lower hq.le (List.ne_nil_of_length_pos (by omega)) hw
  obtain ⟨p', j, rfl⟩ : ∃ p' j, p = p' ++ [j] :=
    ⟨p.dropLast, p.getLast (List.ne_nil_of_length_pos (by omega)),
      (List.dropLast_concat_getLast _).symm⟩
  have hp' : p'.length = 3 := by simpa using hp
  rw [walk_concat, h.walk_write_leaf hq hw hp'.le, userHalf_write hl] at hf
  rw [walk_concat]
  obtain ⟨t', ht', hn⟩ := Option.bind_eq_some_iff.mp hf
  by_cases hc : t' = t ∧ j = i
  · obtain ⟨rfl, rfl⟩ := hc
    have hqp : p' = q := h.forest root (by simp) root (by simp) p' q t' hp'.le hq.le ht' hw
    rw [write_self] at hn
    exact Or.inr ⟨by rw [hqp], hn⟩
  · rw [write_of_ne hc] at hn
    refine Or.inl ⟨by rw [ht']; exact hn, ?_⟩
    intro he
    obtain ⟨rfl, hj⟩ := List.append_inj he (by omega)
    rw [hw] at ht'
    exact hc ⟨(Option.some.inj ht').symm, List.head_eq_of_cons_eq hj⟩

/-- The rule for a write to an entry of the last level. -/
theorem write_leaf (hq : q.length = 3) (hw : walk next (userHalf root mem) root q = some t)
    (hv : valid desc → next desc ≠ none)
    (hn : ∀ f, next desc = some f → ram f → Unreached next [root] 3 (userHalf root mem) f)
    (ho : ∀ f, next desc = some f → f ∈ priv' → ∀ p, p.length = 4 →
      walk next (userHalf root mem) root p = some f → p = q ++ [i])
    (hp : ∀ f ∈ priv', f ∈ priv ∨ (next desc = some f ∧ ram f)) :
    SpaceInv ram root (write mem t i desc) priv' := by
  have hl : Lower root t i := h.lower hq.le (List.ne_nil_of_length_pos (by omega)) hw
  have hwalk : ∀ {p : List (BitVec 9)}, p.length ≤ 3 →
      walk next (userHalf root (write mem t i desc)) root p =
        walk next (userHalf root mem) root p := fun hp => h.walk_write_leaf hq hw hp
  have hunr : ∀ {f : BitVec 64}, Unreached next [root] 3 (userHalf root mem) f →
      Unreached next [root] 3 (userHalf root (write mem t i desc)) f := by
    intro f hf
    rw [unreached_iff] at hf ⊢
    intro p hp
    rw [hwalk hp]
    exact hf p hp
  constructor
  · rw [userHalf_write hl]
    exact h.forest.forest_write (by simp) hq hw
  · intro p j t' hp' hw' hd
    have hw₀ := hw'
    rw [hwalk (by omega)] at hw₀
    have hne : ¬(t' = t ∧ j = i) := by
      intro hc
      rw [hc.1] at hw₀
      have he := h.forest root (by simp) root (by simp) p q t (by omega) hq.le hw₀ hw
      rw [he] at hp'
      omega
    rw [userHalf_write hl, write_of_ne hne] at hd ⊢
    exact h.dirs p j t' hp' hw₀ hd
  · intro p j t' hp' hw' hvj
    rw [hwalk hp'] at hw'
    rw [userHalf_write hl] at hvj ⊢
    by_cases hc : t' = t ∧ j = i
    · obtain ⟨rfl, rfl⟩ := hc
      rw [write_self] at hvj ⊢
      exact hv hvj
    · rw [write_of_ne hc] at hvj ⊢
      exact h.whole p j t' hp' hw' hvj
  · intro p t' hp' hw'
    rw [hwalk hp'] at hw'
    exact h.tables p t' hp' hw'
  · intro p f hp' hw' hr
    apply hunr
    obtain ⟨hw', -⟩ | ⟨-, hd⟩ := h.frame_write_leaf hq hw hp' hw'
    · exact h.leaves p f hp' hw' hr
    · exact hn f hd hr
  · intro p p' f hp₁ hp₂ hw₁ hw₂ hf
    obtain ⟨hw₁, hne₁⟩ | ⟨hp₁', hd₁⟩ := h.frame_write_leaf hq hw hp₁ hw₁
    · obtain ⟨hw₂, hne₂⟩ | ⟨hp₂', hd₂⟩ := h.frame_write_leaf hq hw hp₂ hw₂
      · obtain hf' | ⟨hd, -⟩ := hp f hf
        · exact h.once p p' f hp₁ hp₂ hw₁ hw₂ hf'
        · exact absurd (ho f hd hf p hp₁ hw₁) hne₁
      · exact absurd (ho f hd₂ hf p hp₁ hw₁) hne₁
    · obtain ⟨hw₂, hne₂⟩ | ⟨hp₂', hd₂⟩ := h.frame_write_leaf hq hw hp₂ hw₂
      · exact absurd (ho f hd₁ hf p' hp₂ hw₂) hne₂
      · rw [hp₁', hp₂']
  · intro f hf
    exact (hp f hf).elim (h.ramPriv f) And.right

end SpaceInv

/-! ## Mapping -/

/-- The frames that are in no use stay so, but for `page`. -/
def Keeps (root page : BitVec 64) (mem mem' : Mem) : Prop :=
  ∀ g n, n ≤ 4 → g ≠ page → Unreached next [root] n (userHalf root mem) g →
    Unreached next [root] n (userHalf root mem') g

/-- A new table in the user half. -/
structure NewTable (ram : BitVec 64 → Prop) (root : BitVec 64) (mem : Mem) (t : BitVec 64)
    (p : List (BitVec 9)) (i : BitVec 9) (page desc : BitVec 64) (mem' : Mem) : Prop where
  links : Links next [root] 3 (userHalf root mem) 0 root t p i page desc
  memory : userHalf root mem' = link (userHalf root mem) 0 t i page desc
  high : desc &&& HIGH_BITS = 0
  inRam : ram page
  unmapped : ∀ p, p.length = 4 → walk next (userHalf root mem) root p ≠ some page

namespace NewTable

variable (hn : NewTable ram root mem t p i page desc mem')
include hn

theorem frame_link (hq : q.length = 4) (hf : walk next (userHalf root mem') root q = some f) :
    walk next (userHalf root mem) root q = some f := by
  obtain ⟨q', j, rfl⟩ : ∃ q' j, q = q' ++ [j] :=
    ⟨q.dropLast, q.getLast (List.ne_nil_of_length_pos (by omega)),
      (List.dropLast_concat_getLast _).symm⟩
  have hq' : q'.length = 3 := by simpa using hq
  rw [hn.memory, walk_concat] at hf
  rw [walk_concat]
  obtain ⟨t', ht', hd⟩ := Option.bind_eq_some_iff.mp hf
  obtain ⟨hw, he⟩ | ⟨hqp, _⟩ | he := hn.links.entry_cases (by simp) hq'.le ht' j
  · rw [he] at hd
    rw [hw]
    exact hd
  · have hs := hn.links.short
    rw [← hqp] at hs
    omega
  · rw [he, next_zero] at hd
    exact absurd hd (by simp)

theorem keeps : Keeps root page mem mem' := by
  intro g n hn4 hne hg
  rw [unreached_iff] at hg ⊢
  intro q hq hw
  by_cases hlen : q.length = 4
  · exact hg q hq (hn.frame_link hlen hw)
  · rw [hn.memory] at hw
    obtain hw | ⟨-, hgp, -⟩ := hn.links.walk_cases (by simp) (by omega) hw
    · exact hg q hq hw
    · exact hne hgp

theorem inv (h : SpaceInv ram root mem priv) : SpaceInv ram root mem' priv := by
  have hd : next desc ≠ none := by
    rw [hn.links.points]
    simp
  constructor
  · rw [hn.memory]
    exact hn.links.forest_link
  · intro q j t' hq hw hne
    rw [hn.memory] at hw hne ⊢
    obtain ⟨hw', he⟩ | ⟨-, he⟩ | he := hn.links.entry_cases (by simp) hq.le hw j
    · rw [he] at hne ⊢
      exact h.dirs q j t' hq hw' hne
    · rw [he]
      exact hn.high
    · rw [he] at hne
      exact absurd next_zero hne
  · intro q j t' hq hw hv
    rw [hn.memory] at hw hv ⊢
    obtain ⟨hw', he⟩ | ⟨-, he⟩ | he := hn.links.entry_cases (by simp) hq hw j
    · rw [he] at hv ⊢
      exact h.whole q j t' hq hw' hv
    · rw [he]
      exact hd
    · rw [he] at hv
      exact absurd hv not_valid_zero
  · intro q t' hq hw
    rw [hn.memory] at hw
    obtain hw | ⟨-, rfl, -⟩ := hn.links.walk_cases (by simp) hq hw
    · exact h.tables q t' hq hw
    · exact hn.inRam
  · intro q f hq hw hr
    have hw' := hn.frame_link hq hw
    apply hn.keeps f 3 (by decide)
    · intro hfp
      exact hn.unmapped q hq (hfp ▸ hw')
    · exact h.leaves q f hq hw' hr
  · intro q q' f hq hq' hw hw' hf
    exact h.once q q' f hq hq' (hn.frame_link hq hw) (hn.frame_link hq' hw') hf
  · exact h.ramPriv

end NewTable

namespace SpaceInv

variable (h : SpaceInv ram root mem priv)
include h

/-- No frame, the table that is there, or a new one. -/
theorem vmmTable_cases (hf : TableFlags flags) (hp : p.length < 3)
    (hw : walk next (userHalf root mem) root p = some t) (hl : Lower root t i)
    (hs : page ≠ PMM_INVALID_PHYS → Fresh ram root mem page) :
    vmmTable flags page mem t i = (mem, none) ∨
      (∃ u, vmmTable flags page mem t i = (mem, some u) ∧
        walk next (userHalf root mem) root (p ++ [i]) = some u) ∨
      ∃ mem' d, vmmTable flags page mem t i = (mem', some page) ∧
        NewTable ram root mem t p i page d mem' := by
  have he : userHalf root mem t i = mem t i := userHalf_apply hl
  unfold vmmTable
  by_cases hv : valid (mem t i)
  · rw [if_pos hv]
    have hn : next (mem t i) ≠ none := by
      rw [← he] at hv ⊢
      exact h.whole p i t (by omega) hw hv
    have hh : mem t i &&& HIGH_BITS = 0 := by
      rw [← he] at hn ⊢
      exact h.dirs p i t hp hw hn
    refine Or.inr (Or.inl ⟨_, rfl, ?_⟩)
    rw [walk_concat, hw, follow_eq hh, ← next_eq_some hn, ← he]
    rfl
  · rw [if_neg hv]
    unfold vmmPrepareTable
    by_cases hi : page = PMM_INVALID_PHYS
    · rw [if_pos hi]
      exact Or.inl rfl
    · rw [if_neg hi]
      have hfresh := hs hi
      refine Or.inr (Or.inr ⟨write (fill mem page 0) t i ((page &&& ~~~PAGE_MASK) ||| flags),
        (page &&& ~~~PAGE_MASK) ||| flags, ?_, ?_⟩)
      · dsimp only
        rw [write_self, hf.follow hfresh.aligned]
      · constructor
        · refine ⟨h.forest, by simp, hp, hw, ?_, ?_, next_zero, hf.next hfresh.aligned⟩
          · rw [he]
            exact next_of_not_valid hv
          · exact Unreached.mono hfresh.unused (by decide)
        · rw [userHalf_write hl, userHalf_fill]
          rfl
        · rw [hf.high]
          exact and_of_and hfresh.aligned (by decide)
        · exact hfresh.inRam
        · intro q hq
          exact unreached_iff.mp hfresh.unused q hq.le

/-- The rule for one level of a map: it fails, or goes on with the table of the longer path. -/
theorem level (hf : TableFlags flags) (hp : p.length < 3)
    (hw : walk next (userHalf root mem) root p = some t) (hl : Lower root t i)
    (hs : page ≠ PMM_INVALID_PHYS → Fresh ram root mem page)
    {f : Mem → BitVec 64 → Mem × Bool} {R : Mem × Bool → Prop} (hfail : R (mem, false))
    (hgo : ∀ mem' u, SpaceInv ram root mem' priv →
      walk next (userHalf root mem') root (p ++ [i]) = some u → Keeps root page mem mem' →
      R (f mem' u)) :
    R (withTable (vmmTable flags page mem t i) f) := by
  unfold withTable
  obtain he | ⟨u, he, hu⟩ | ⟨mem', d, he, hn⟩ := h.vmmTable_cases hf hp hw hl hs
  · rw [he]
    exact hfail
  · rw [he]
    exact hgo mem u h hu fun _ _ _ _ hg => hg
  · rw [he]
    apply hgo mem' page (hn.inv h)
    · rw [hn.memory]
      exact hn.links.walk_new (by simp) hw
    · exact hn.keeps

end SpaceInv

theorem Fresh.keeps (hf : Fresh ram root mem f) (hk : Keeps root page mem mem') (hne : f ≠ page) :
    Fresh ram root mem' f :=
  ⟨hf.inRam, hf.aligned, hk f 4 le_rfl hne hf.unused⟩

/-- A frame given for a page. When `own` says that it is for this page alone, the allocator just
gave it; otherwise it is none that another page has for itself. No table lies in it. -/
structure PageFrame (ram : BitVec 64 → Prop) (root : BitVec 64) (mem : Mem)
    (priv : List (BitVec 64)) (own : Bool) (f : BitVec 64) : Prop where
  inRam : own = true → ram f
  table : ram f → Unreached next [root] 3 (userHalf root mem) f
  unmapped : own = true ∨ f ∈ priv → Unreached next [root] 4 (userHalf root mem) f

theorem PageFrame.keeps {own : Bool} (hf : PageFrame ram root mem priv own f)
    (hp : ∀ f ∈ priv, ram f) (hk : Keeps root page mem mem') (hne : ram f → f ≠ page) :
    PageFrame ram root mem' priv own f := by
  refine ⟨hf.inRam, ?_, ?_⟩
  · intro hr
    exact hk f 3 (by decide) (hne hr) (hf.table hr)
  · intro ho
    exact hk f 4 le_rfl (hne (ho.elim hf.inRam (hp f))) (hf.unmapped ho)

/-- The frames that are mapped for one page alone, after a page was mapped. -/
def ownFrames (own : Bool) (f : BitVec 64) (priv : List (BitVec 64)) : List (BitVec 64) :=
  if own then f :: priv else priv.filter (· ≠ f)

/-- What a map call leaves. -/
def Mapped (ram : BitVec 64 → Prop) (root : BitVec 64) (priv : List (BitVec 64)) (own : Bool)
    (f : BitVec 64) (o : Mem × Bool) : Prop :=
  SpaceInv ram root o.1 (if o.2 then ownFrames own f priv else priv)

theorem SpaceInv.vmmSetPage {own : Bool} (h : SpaceInv ram root mem priv) (hf : TableFlags flags)
    (hw : walk next (userHalf root mem) root (dirPath virt) = some t)
    (hp : PageFrame ram root mem priv own (phys &&& VMM_PHYS_MASK)) :
    Mapped ram root priv own (phys &&& VMM_PHYS_MASK)
      (vmmSetPage phys flags mem t (ptIndex virt)) := by
  have hd : next ((phys &&& ~~~PAGE_MASK) ||| flags) = some (phys &&& VMM_PHYS_MASK) := by
    unfold next
    rw [if_pos (hf.table_bits phys), hf.frame]
  have hsome : ∀ {f : BitVec 64}, next ((phys &&& ~~~PAGE_MASK) ||| flags) = some f →
      phys &&& VMM_PHYS_MASK = f := by
    intro f hn
    rw [hd] at hn
    exact Option.some.inj hn
  unfold Vmm.vmmSetPage
  split
  · exact h
  · unfold Mapped
    rw [if_pos rfl]
    apply h.write_leaf (dirPath_length virt) hw
    · intro _
      rw [hd]
      simp
    · intro f hn hr
      rw [← hsome hn] at hr ⊢
      exact hp.table hr
    · intro f hn hpr p hlen hwp
      rw [← hsome hn] at hpr hwp
      -- the frame was mapped nowhere, or is one that several pages share
      exfalso
      unfold ownFrames at hpr
      split at hpr
      · next ho => exact unreached_iff.mp (hp.unmapped (Or.inl ho)) p hlen.le hwp
      · exact absurd rfl (of_decide_eq_true (List.mem_filter.mp hpr).2)
    · intro f hpr
      unfold ownFrames at hpr
      split at hpr
      · next ho =>
        obtain rfl | hpr := List.mem_cons.mp hpr
        · exact Or.inr ⟨hd, hp.inRam ho⟩
        · exact Or.inl hpr
      · exact Or.inl (List.mem_filter.mp hpr).1

/-- What a map call is given: an address of the user half, a frame for the page and, from the
level `n` on, frames for tables. -/
structure MapArgs (ram : BitVec 64 → Prop) (root : BitVec 64) (priv : List (BitVec 64))
    (own : Bool) (phys virt : BitVec 64) (pages : Fin 3 → BitVec 64) (mem : Mem) (n : ℕ) :
    Prop where
  user : (pml4Index virt).toNat < 256
  frame : PageFrame ram root mem priv own (phys &&& VMM_PHYS_MASK)
  fresh : ∀ k : Fin 3, n ≤ k.val → pages k ≠ PMM_INVALID_PHYS → Fresh ram root mem (pages k)
  distinct : ∀ k l, k ≠ l → pages k ≠ PMM_INVALID_PHYS → pages k ≠ pages l
  apart : ∀ k, pages k ≠ PMM_INVALID_PHYS → ram (phys &&& VMM_PHYS_MASK) →
    phys &&& VMM_PHYS_MASK ≠ pages k

theorem masked_ne_invalid (phys : BitVec 64) : phys &&& VMM_PHYS_MASK ≠ PMM_INVALID_PHYS := by
  intro h
  have h0 := and_of_and (x := phys &&& VMM_PHYS_MASK) (m := VMM_PHYS_MASK) (k := PAGE_MASK)
    (by rw [BitVec.and_assoc, BitVec.and_self]) (by decide)
  rw [h] at h0
  exact absurd h0 (by decide)

/-- After one level the frames of the others are still unused. -/
theorem MapArgs.next {own : Bool} {pages : Fin 3 → BitVec 64} {k : Fin 3}
    (ha : MapArgs ram root priv own phys virt pages mem k.val) (hp : ∀ f ∈ priv, ram f)
    (hk : Keeps root (pages k) mem mem') :
    MapArgs ram root priv own phys virt pages mem' (k.val + 1) := by
  refine ⟨ha.user, ?_, ?_, ha.distinct, ha.apart⟩
  · apply ha.frame.keeps hp hk
    intro hr
    by_cases hi : pages k = PMM_INVALID_PHYS
    · rw [hi]
      exact masked_ne_invalid phys
    · exact ha.apart k hi hr
  · intro l hl hi
    have hne : l ≠ k := by
      intro he
      rw [he] at hl
      omega
    exact (ha.fresh l (by omega) hi).keeps hk (ha.distinct l k hne hi)

section Map

variable {own : Bool} {pages : Fin 3 → BitVec 64} (h : SpaceInv ram root mem priv)
  (ha : MapArgs ram root priv own phys virt pages mem 0)
include h ha

theorem auMapPageEx_space (attrib : BitVec 8) :
    Mapped ram root priv own (phys &&& VMM_PHYS_MASK)
      (auMapPageEx mem root phys virt attrib pages) := by
  unfold auMapPageEx
  apply h.level (p := []) flagsEx_table (by decide) rfl (fun _ => ha.user) (ha.fresh 0 le_rfl) h
  intro m₁ pml3 h₁ w₁ k₁
  have a₁ := ha.next h.ramPriv k₁
  apply h₁.level flagsEx_table (by simp) w₁ (h₁.lower (by simp) (by simp) w₁) (a₁.fresh 1 le_rfl) h₁
  intro m₂ pml2 h₂ w₂ k₂
  have a₂ := MapArgs.next (k := 1) a₁ h.ramPriv k₂
  apply h₂.level flagsEx_table (by simp) w₂ (h₂.lower (by simp) (by simp) w₂) (a₂.fresh 2 le_rfl) h₂
  intro m₃ pml1 h₃ w₃ k₃
  have a₃ := MapArgs.next (k := 2) a₂ h.ramPriv k₃
  exact h₃.vmmSetPage (mapFlagsEx_table attrib) w₃ a₃.frame

theorem auMapPage_space (attrib : BitVec 8) :
    Mapped ram root priv own (phys &&& VMM_PHYS_MASK)
      (auMapPage mem root phys virt attrib pages) := by
  unfold auMapPage
  apply h.level (p := []) flags_table (by decide) rfl (fun _ => ha.user) (ha.fresh 0 le_rfl) h
  intro m₁ pml3 h₁ w₁ k₁
  have a₁ := ha.next h.ramPriv k₁
  apply h₁.level flags_table (by simp) w₁ (h₁.lower (by simp) (by simp) w₁) (a₁.fresh 1 le_rfl) h₁
  intro m₂ pml2 h₂ w₂ k₂
  have a₂ := MapArgs.next (k := 1) a₁ h.ramPriv k₂
  split
  · exact h₂
  apply h₂.level flags_table (by simp) w₂ (h₂.lower (by simp) (by simp) w₂) (a₂.fresh 2 le_rfl) h₂
  intro m₃ pml1 h₃ w₃ k₃
  have a₃ := MapArgs.next (k := 2) a₂ h.ramPriv k₃
  split
  · exact h₃
  exact h₃.vmmSetPage (mapFlags_table attrib) w₃ a₃.frame

end Map

/-! ## The other calls -/

def UserRange (virt : BitVec 64) (n : ℕ) : Prop :=
  ∀ k < n, (pml4Index (virt + BitVec.ofNat 64 k * PAGE_SIZE)).toNat < 256

/-- The tables of the user half are the same in both memories. -/
def SameHalf (root : BitVec 64) (mem mem' : Mem) : Prop :=
  ∀ p t, p.length ≤ 3 → walk next (userHalf root mem) root p = some t →
    ∀ i, userHalf root mem' t i = userHalf root mem t i

theorem SameHalf.walk (h : SameHalf root mem mem') (hp : p.length ≤ 4) :
    walk next (userHalf root mem') root p = Radix.walk next (userHalf root mem) root p := by
  induction p using List.reverseRecOn with
  | nil => rfl
  | append_singleton q j ih =>
    have hq : q.length ≤ 3 := by
      rw [List.length_append, List.length_singleton] at hp
      omega
    rw [walk_concat, walk_concat, ih (by omega)]
    cases hw : Radix.walk next (userHalf root mem) root q with
    | none => rfl
    | some t =>
      dsimp only [Option.bind_some]
      rw [h q t hq hw]

theorem SameHalf.unreached {n : ℕ} (h : SameHalf root mem mem') (hn : n ≤ 4)
    (hf : Unreached next [root] n (userHalf root mem) f) :
    Unreached next [root] n (userHalf root mem') f := by
  rw [unreached_iff] at hf ⊢
  intro p hp
  rw [h.walk (hp.trans hn)]
  exact hf p hp

namespace SpaceInv

variable (h : SpaceInv ram root mem priv)
include h

theorem sameHalf (hs : SameHalf root mem mem') : SpaceInv ram root mem' priv := by
  constructor
  · intro r hr r' hr' p q t hp hq hw hw'
    rw [List.mem_singleton.mp hr, hs.walk (by omega)] at hw
    rw [List.mem_singleton.mp hr', hs.walk (by omega)] at hw'
    exact h.forest root (by simp) root (by simp) p q t hp hq hw hw'
  · intro p i t hp hw hn
    rw [hs.walk (by omega)] at hw
    rw [hs p t (by omega) hw] at hn ⊢
    exact h.dirs p i t hp hw hn
  · intro p i t hp hw hv
    rw [hs.walk (by omega)] at hw
    rw [hs p t hp hw] at hv ⊢
    exact h.whole p i t hp hw hv
  · intro p t hp hw
    rw [hs.walk (by omega)] at hw
    exact h.tables p t hp hw
  · intro p f hp hw hr
    rw [hs.walk hp.le] at hw
    exact hs.unreached (by decide) (h.leaves p f hp hw hr)
  · intro p q f hp hq hw hw' hf
    rw [hs.walk hp.le] at hw
    rw [hs.walk hq.le] at hw'
    exact h.once p q f hp hq hw hw' hf
  · exact h.ramPriv

/-- A walk that begins in the user half stays there. -/
theorem walk_user (hi : i.toNat < 256) (hp : p.length ≤ 3) :
    walk next mem root (i :: p) = walk next (userHalf root mem) root (i :: p) := by
  induction p using List.reverseRecOn with
  | nil =>
    have hl : Lower root root i := fun _ => hi
    simp only [Radix.walk, userHalf_apply hl]
  | append_singleton q j ih =>
    have hq : q.length + 1 ≤ 3 := by simpa using hp
    rw [← List.cons_append, walk_concat, walk_concat, ih (by omega)]
    cases hw : walk next (userHalf root mem) root (i :: q) with
    | none => rfl
    | some t =>
      dsimp only [Option.bind_some]
      have hl : Lower root t j := h.lower (by simpa using hq) (List.cons_ne_nil i q) hw
      rw [userHalf_apply hl]

/-- The rule for a change of a mapped page's entry that takes the page away or leaves its
frame. -/
theorem editPage {edit : BitVec 64 → BitVec 64}
    (he : ∀ d, valid d → ¬valid (edit d) ∨ next (edit d) = next d)
    (hv : (pml4Index virt).toNat < 256) :
    SpaceInv ram root (vmmEditPage edit mem root virt) priv := by
  obtain ⟨hs, _⟩ | ⟨t, hw, hd, hs⟩ := vmmEditPage_cases edit mem root virt
  · rw [hs]
    exact h
  · rw [hs]
    have hwu : walk next (userHalf root mem) root (dirPath virt) = some t :=
      (h.walk_user hv (by simp)).symm.trans hw
    have hu : userHalf root mem t (ptIndex virt) = mem t (ptIndex virt) :=
      userHalf_apply (h.lower (by simp) (by simp [dirPath]) hwu)
    have hframe : ∀ f, next (edit (mem t (ptIndex virt))) = some f →
        walk next (userHalf root mem) root (dirPath virt ++ [ptIndex virt]) = some f := by
      intro f hn
      rw [walk_concat, hwu, Option.bind_some, hu]
      apply (he _ hd).elim
      · intro hnv
        rw [next_of_not_valid hnv] at hn
        exact absurd hn (by simp)
      · intro heq
        rw [← heq, hn]
    apply h.write_leaf (dirPath_length virt) hwu
    · intro hve
      rw [(he _ hd).resolve_left (not_not_intro hve)]
      rw [← hu] at hd ⊢
      exact h.whole _ _ t (by simp) hwu hd
    · intro f hn hr
      exact h.leaves _ f rfl (hframe f hn) hr
    · intro f hn hf p hp hwp
      exact h.once p _ f hp rfl hwp (hframe f hn) hf
    · exact fun f hf => Or.inl hf

theorem editPages {edit : BitVec 64 → BitVec 64}
    (he : ∀ d, valid d → ¬valid (edit d) ∨ next (edit d) = next d) {n : ℕ}
    (hv : UserRange virt n) :
    SpaceInv ram root (vmmEditPages edit (fun _ => root) n virt mem) priv := by
  induction n generalizing mem virt with
  | zero => exact h
  | succ n ih =>
    have h0 := hv 0 (by omega)
    rw [range_zero] at h0
    apply ih (h.editPage he h0)
    intro k hk
    rw [← range_succ]
    exact hv (k + 1) (by omega)

end SpaceInv

theorem next_setAttributes (bits d : BitVec 64) : next (setAttributes bits d) = next d := by
  unfold next
  rw [setAttributes_and bits d _ (by decide), setAttributes_and bits d _ (by decide)]

/-! ## Runs -/

/-- `priv` are the frames that were given for one page of the address space alone. -/
structure Space where
  mem : Mem
  priv : List (BitVec 64)

/-- The calls on the address space. `own` says that the frame was allocated for this page, and is
not one that others use too: a page of the file cache, of a shared segment, of a device.
`other` is everything else that writes memory. -/
inductive SpaceAct
  | mapEx (own : Bool) (phys virt : BitVec 64) (attrib : BitVec 8) (pages : Fin 3 → BitVec 64)
  | map (own : Bool) (phys virt : BitVec 64) (attrib : BitVec 8) (pages : Fin 3 → BitVec 64)
  | free (virt size : BitVec 64)
  | unmap (addr len : BitVec 64)
  | attributes (virt bits : BitVec 64)
  | other (mem : Mem)

def Space.mapped (s : Space) (own : Bool) (phys : BitVec 64) (o : Mem × Bool) : Space :=
  ⟨o.1, if o.2 then ownFrames own (phys &&& VMM_PHYS_MASK) s.priv else s.priv⟩

def spaceStep (root : BitVec 64) (s : Space) : SpaceAct → Space
  | .mapEx own phys virt attrib pages =>
    s.mapped own phys (auMapPageEx s.mem root phys virt attrib pages)
  | .map own phys virt attrib pages =>
    s.mapped own phys (auMapPage s.mem root phys virt attrib pages)
  | .free virt size => { s with mem := auFreePagesEx s.mem root virt size }
  | .unmap addr len =>
    let pages := (pageAlign len / PAGE_SIZE).toNat
    { s with mem := vmmEditPages unmapEntry (fun _ => root) pages addr s.mem }
  | .attributes virt bits => { s with mem := vmmEditPage (setAttributes bits) s.mem root virt }
  | .other mem => { s with mem }

/-- The calls are for addresses of the user half, and the frames are what they are given for. -/
def SpaceOk (ram : BitVec 64 → Prop) (root : BitVec 64) (s : Space) : SpaceAct → Prop
  | .mapEx own phys virt _ pages => MapArgs ram root s.priv own phys virt pages s.mem 0
  | .map own phys virt _ pages => MapArgs ram root s.priv own phys virt pages s.mem 0
  | .free virt size => UserRange virt (numPages size)
  | .unmap addr len => UserRange addr (pageAlign len / PAGE_SIZE).toNat
  | .attributes virt _ => (pml4Index virt).toNat < 256
  | .other mem => SameHalf root s.mem mem

theorem SpaceInv.step {s : Space} (h : SpaceInv ram root s.mem s.priv) (act : SpaceAct)
    (ha : SpaceOk ram root s act) :
    SpaceInv ram root (spaceStep root s act).mem (spaceStep root s act).priv := by
  cases act with
  | mapEx own phys virt attrib pages => exact auMapPageEx_space h ha attrib
  | map own phys virt attrib pages => exact auMapPage_space h ha attrib
  | free virt size => exact h.editPages (fun _ _ => Or.inl not_valid_zero) ha
  | unmap addr len => exact h.editPages (fun d _ => Or.inl (not_valid_unmapEntry d)) ha
  | attributes virt bits => exact h.editPage (fun d _ => Or.inr (next_setAttributes bits d)) ha
  | other mem => exact h.sameHalf ha

/-- A new address space. -/
def newSpace (mem : Mem) (kernelRoot root : BitVec 64) : Space :=
  ⟨auCreateVirtualAddressSpace mem kernelRoot root, []⟩

theorem newSpace_inv (mem : Mem) (kernelRoot : BitVec 64) (hr : ram root) :
    SpaceInv ram root (newSpace mem kernelRoot root).mem (newSpace mem kernelRoot root).priv := by
  have hempty : ∀ i, userHalf root (newSpace mem kernelRoot root).mem root i = 0 := by
    intro i
    unfold userHalf newSpace auCreateVirtualAddressSpace
    dsimp only
    by_cases hi : 256 ≤ i.toNat
    · rw [if_pos ⟨rfl, hi⟩]
    · rw [if_neg fun hc => hi hc.2, if_pos rfl, if_pos (by omega)]
  have hwalk : ∀ {p f}, walk next (userHalf root (newSpace mem kernelRoot root).mem) root p =
      some f → p = [] ∧ f = root := by
    intro p f hw
    cases p with
    | nil => exact ⟨rfl, (Option.some.inj hw).symm⟩
    | cons i p =>
      rw [Radix.walk, hempty, next_zero] at hw
      exact absurd hw (by simp)
  constructor
  · intro r hr r' hr' p q t _ _ hw hw'
    rw [List.mem_singleton.mp hr] at hw
    rw [List.mem_singleton.mp hr'] at hw'
    rw [(hwalk hw).1, (hwalk hw').1]
  · intro p i t _ hw hn
    rw [(hwalk hw).2, hempty] at hn
    exact absurd next_zero hn
  · intro p i t _ hw hv
    rw [(hwalk hw).2, hempty] at hv
    exact absurd hv not_valid_zero
  · intro p t _ hw
    rw [(hwalk hw).2]
    exact hr
  · intro p f hp hw
    rw [(hwalk hw).1] at hp
    exact absurd hp (by decide)
  · intro p q f hp _ hw
    rw [(hwalk hw).1] at hp
    exact absurd hp (by decide)
  · intro f hf
    exact absurd hf List.not_mem_nil

theorem exec_space (mem : Mem) (kernelRoot : BitVec 64) (hr : ram root) {acts : List SpaceAct}
    (h : Respects (SpaceOk ram root) (spaceStep root) (newSpace mem kernelRoot root) acts) :
    SpaceInv ram root (run (spaceStep root) (newSpace mem kernelRoot root) acts).mem
      (run (spaceStep root) (newSpace mem kernelRoot root) acts).priv :=
  h.invariant (I := fun s => SpaceInv ram root s.mem s.priv) (fun _ act hi ha => hi.step act ha)
    (newSpace_inv mem kernelRoot hr)

end Xeneva.Vmm
