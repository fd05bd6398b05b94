import Xeneva.Fs.FatDirs

/-!
# What the operations do to a tree

Creation puts an entry with a free cluster in the first free place of the directory, a write
appends clusters to a file and adds to the size in its entry, a removal takes an entry and its
chain away.
-/

namespace Xeneva.Fat

variable {fs : FatFS} {top : ℕ} {d d' : Disk} {objs rest : List Obj} {o g : Obj} {x y : Slot}
variable {c n new : ℕ}

/-- An entry is its 32 bytes. -/
structure SameEntry (s t : Sector) (i : ℕ) : Prop where
  owner : owner s i = owner t i
  dir : isDir s i = isDir t i
  ends : isEnd s i = isEnd t i

theorem sameEntry_of {s t : Sector} {i : ℕ} (h0 : s (32 * i) = t (32 * i))
    (h11 : s (32 * i + 11) = t (32 * i + 11)) (h20 : s (32 * i + 20) = t (32 * i + 20))
    (h21 : s (32 * i + 21) = t (32 * i + 21)) (h26 : s (32 * i + 26) = t (32 * i + 26))
    (h27 : s (32 * i + 27) = t (32 * i + 27)) : SameEntry s t i where
  owner := by rw [owner, owner, entryFree, entryFree, isLongName, isLongName, firstCluster,
    firstCluster, h0, h11, h20, h21, h26, h27]
  dir := by rw [isDir, isDir, h11]
  ends := by rw [isEnd, isEnd, h0]

theorem SameEntry.refl (s : Sector) (i : ℕ) : SameEntry s s i := ⟨rfl, rfl, rfl⟩

/-- Outside one entry, a sector that differs there only has the same entries. -/
theorem sameEntry_of_ne {s t : Sector} {i i' : ℕ} (h : i' ≠ i)
    (hs : ∀ p, p < 32 * i ∨ 32 * i + 32 ≤ p → s p = t p) : SameEntry s t i' := by
  apply sameEntry_of <;> exact hs _ (by omega)

theorem fillEntry_head (s : Sector) (i : ℕ) (name : ℕ → UInt8) (attrib : UInt8) (cluster : ℕ)
    (keepTime : Bool) : fillEntry s i name attrib cluster keepTime (32 * i) = name 0 := by
  rw [fillEntry, if_neg (by omega)]
  simp

theorem fillEntry_attrib (s : Sector) (i : ℕ) (name : ℕ → UInt8) (attrib : UInt8) (cluster : ℕ)
    (keepTime : Bool) :
    fillEntry s i name attrib cluster keepTime (32 * i + 11) = attrib := by
  rw [fillEntry, if_neg (by omega)]
  simp

theorem firstCluster_fillEntry (s : Sector) (i : ℕ) (name : ℕ → UInt8) (attrib : UInt8)
    {cluster : ℕ} (hc : cluster < 2 ^ 28) (keepTime : Bool) :
    firstCluster (fillEntry s i name attrib cluster keepTime) i = cluster := by
  have h20 : fillEntry s i name attrib cluster keepTime (32 * i + 20) = byte cluster 2 := by
    rw [fillEntry, if_neg (by omega), Nat.mod_eq_of_lt hc]
    simp
  have h21 : fillEntry s i name attrib cluster keepTime (32 * i + 21) = byte cluster 3 := by
    rw [fillEntry, if_neg (by omega), Nat.mod_eq_of_lt hc]
    simp
  have h26 : fillEntry s i name attrib cluster keepTime (32 * i + 26) = byte cluster 0 := by
    rw [fillEntry, if_neg (by omega)]
    simp
  have h27 : fillEntry s i name attrib cluster keepTime (32 * i + 27) = byte cluster 1 := by
    rw [fillEntry, if_neg (by omega)]
    simp
  rw [firstCluster, h20, h21, h26, h27]
  simp only [byte_toNat]
  omega

/-- The first byte of a DOS name: no end mark, no mark of a deleted entry, no dot. -/
def NameOk (name : ℕ → UInt8) : Prop := name 0 ≠ 0 ∧ name 0 ≠ 0xE5 ∧ name 0 ≠ 0x2E

instance (name : ℕ → UInt8) : Decidable (NameOk name) := inferInstanceAs (Decidable (_ ∧ _))

theorem owner_fillEntry (s : Sector) (i : ℕ) {name : ℕ → UInt8} (hname : NameOk name)
    {attrib : UInt8} (ha : attrib &&& FAT_ATTRIBUTE_LONG_NAME ≠ FAT_ATTRIBUTE_LONG_NAME)
    {cluster : ℕ} (hc : cluster < 2 ^ 28) (h0 : cluster ≠ 0) (keepTime : Bool) :
    owner (fillEntry s i name attrib cluster keepTime) i = some cluster := by
  have hfree : entryFree (fillEntry s i name attrib cluster keepTime) i = false := by
    rw [entryFree, fillEntry_head]
    exact decide_eq_false fun h => h.elim hname.1 hname.2.1
  have hlong : isLongName (fillEntry s i name attrib cluster keepTime) i = false := by
    rw [isLongName, fillEntry_attrib]
    exact decide_eq_false ha
  rw [owner, hfree, hlong, fillEntry_head, firstCluster_fillEntry s i name attrib hc, if_neg]
  simp only [Bool.false_eq_true, false_or, not_or]
  exact ⟨hname.2.2, h0⟩

/-- Two sectors of the data area. -/
theorem Volume.place_ne (hv : Volume fs) (hx : fs.Cluster x.1) (hy : fs.Cluster y.1)
    (hxj : x.2.1 < fs.sectorPerCluster) (hyj : y.2.1 < fs.sectorPerCluster)
    (h : ¬ (y.1 = x.1 ∧ y.2.1 = x.2.1)) :
    fatClusterToSector32 fs y.1 + y.2.1 ≠ fatClusterToSector32 fs x.1 + x.2.1 := by
  by_cases hc : y.1 = x.1
  · rw [hc]
    intro he
    exact h ⟨hc, by omega⟩
  · have := hv.apart hy hx hc
    omega

/-- One entry of a directory is rewritten: every other one stays. -/
theorem sameEntry_write (hv : Volume fs) {s : Sector} (hx : fs.Cluster x.1) (hy : fs.Cluster y.1)
    (hxj : x.2.1 < fs.sectorPerCluster) (hyj : y.2.1 < fs.sectorPerCluster) (hne : y ≠ x)
    (hs : ∀ p, p < 32 * x.2.2 ∨ 32 * x.2.2 + 32 ≤ p → s p = sectorAt fs d x p) :
    SameEntry (sectorAt fs (writeSector d (fatClusterToSector32 fs x.1 + x.2.1) s) y)
      (sectorAt fs d y) y.2.2 := by
  by_cases hp : y.1 = x.1 ∧ y.2.1 = x.2.1
  · have hi : y.2.2 ≠ x.2.2 := by
      intro hi
      exact hne (Prod.ext hp.1 (Prod.ext hp.2 hi))
    have hsame : sectorAt fs d x = sectorAt fs d y := by
      rw [sectorAt, sectorAt, hp.1, hp.2]
    rw [sectorAt, hp.1, hp.2, writeSector, Function.update_self, ← hsame]
    exact sameEntry_of_ne hi hs
  · have := hv.place_ne hx hy hxj hyj hp
    rw [sectorAt, writeSector, Function.update_of_ne this]
    exact SameEntry.refl _ _

theorem sectorAt_write_self (s : Sector) :
    sectorAt fs (writeSector d (fatClusterToSector32 fs x.1 + x.2.1) s) x = s := by
  rw [sectorAt, writeSector, Function.update_self]

/-! ## Creation -/

/-- A cluster is marked, written, and named by a new entry. -/
theorem Tree.added {d₁ d₂ : Disk} {name : ℕ → UInt8} {attrib : UInt8} {keepTime : Bool}
    (ha : Area fs top) (ht : Tree fs top d objs) (hg : g ∈ objs) (hxg : x ∈ slots fs g.chain)
    (h2 : 2 ≤ new) (hn : new < top) (h0 : entry fs d new = 0) (hname : NameOk name)
    (hattr : attrib &&& FAT_ATTRIBUTE_LONG_NAME ≠ FAT_ATTRIBUTE_LONG_NAME)
    (hd₁ : d₁ = fatAllocCluster fs d new FAT_EOC_MARK) (hd₂ : OnlyCluster fs new d₁ d₂)
    (hd' : d' = writeSector d₂ (fatClusterToSector32 fs x.1 + x.2.1)
      (fillEntry (sectorAt fs d x) x.2.2 name attrib new keepTime))
    (hempty : attrib &&& FAT_ATTRIBUTE_DIRECTORY = FAT_ATTRIBUTE_DIRECTORY →
      ∀ y ∈ slots fs [new], ownerAt fs d₂ y = none) :
    Added fs d d' objs x new (attrib &&& FAT_ATTRIBUTE_DIRECTORY = FAT_ATTRIBUTE_DIRECTORY) := by
  have hv := ha.volume
  have hnc := ha.cluster h2 hn
  obtain ⟨hx1, hxj, hxi⟩ := mem_slots.mp hxg
  have hxc := (ht.chain g hg).cluster _ hx1
  have h28 : new < 2 ^ 28 := lt_of_lt_of_le hnc.2.1 (hv.count.trans (by decide))
  have hxn : x.1 ≠ new := by
    intro he
    exact ht.not_mem_of_free h0 hg (he ▸ hx1)
  have hself : sectorAt fs d' x = fillEntry (sectorAt fs d x) x.2.2 name attrib new keepTime := by
    rw [hd', sectorAt_write_self]
  have hold : ∀ y : Slot, fs.Cluster y.1 → y.1 ≠ new → y.2.1 < fs.sectorPerCluster →
      sectorAt fs d₂ y = sectorAt fs d y := by
    intro y hy hyn hyj
    rw [sectorAt, hd₂.sector hv hnc hy hyn hyj, hd₁]
    exact sectorAt_alloc hv hnc hy _
  have honly : OnlyCluster fs x.1 d₂ d' := hd' ▸ writeSector_only hxj _
  have hentry : ∀ p, fs.Cluster p → entry fs d' p = entry fs d₁ p := by
    intro p hp
    rw [honly.entry hv hxc hp.2.2, hd₂.entry hv hnc hp.2.2]
  have hsame : ∀ z ∈ objs, ∀ y ∈ slots fs z.chain, y ≠ x →
      SameEntry (sectorAt fs d' y) (sectorAt fs d y) y.2.2 := by
    intro z hz y hy hyx
    obtain ⟨hy1, hyj, -⟩ := mem_slots.mp hy
    have hyc := (ht.chain z hz).cluster _ hy1
    have hyn : y.1 ≠ new := by
      intro he
      exact ht.not_mem_of_free h0 hz (he ▸ hy1)
    rw [hd', ← hold y hyc hyn hyj]
    apply sameEntry_write hv hxc hyc hxj hyj hyx
    intro p hp
    rw [hold x hxc hxn hxj, fillEntry, if_pos hp]
  constructor
  · rw [fatReadFAT_eq, hentry new hnc, hd₁, entry_alloc hv hnc, h0, Nat.zero_div, Nat.zero_mul,
      Nat.zero_add, Nat.mod_mod]
  · intro p hp hpn
    rw [hentry p hp, hd₁, entry_alloc_of_ne hv _ hpn]
  · exact fun z hz y hy hyx => (hsame z hz y hy hyx).owner
  · exact fun z hz y hy hyx => (hsame z hz y hy hyx).dir
  · exact fun z hz y hy hyx => (hsame z hz y hy hyx).ends
  · rw [ownerAt, hself]
    exact owner_fillEntry _ _ hname hattr h28 (by omega) keepTime
  · rw [dirAt, hself, isDir, fillEntry_attrib]
  · rw [endAt, hself, isEnd, fillEntry_head]
    exact decide_eq_false hname.1
  · intro hk y hy
    obtain ⟨hy1, hyj, -⟩ := mem_slots.mp hy
    rw [List.mem_singleton] at hy1
    rw [← hempty (of_decide_eq_true hk) y hy, ownerAt, ownerAt, sectorAt, sectorAt]
    have hne := hv.place_ne (x := x) (y := y) hxc (hy1 ▸ hnc) hxj hyj
      fun he => hxn (he.1.symm.trans hy1)
    rw [hd', writeSector, Function.update_of_ne hne]

/-- The free clusters of the data area. -/
def freeBelow (fs : FatFS) (top : ℕ) (d : Disk) : Finset ℕ :=
  (Finset.range top).filter fun c => 2 ≤ c ∧ entry fs d c = 0

theorem mem_freeBelow : c ∈ freeBelow fs top d ↔ c < top ∧ 2 ≤ c ∧ entry fs d c = 0 := by
  rw [freeBelow, Finset.mem_filter, Finset.mem_range]

/-- The search finds a free cluster of the data area where there is one. -/
theorem Area.findFree (ha : Area fs top) (h : 0 < (freeBelow fs top d).card) :
    2 ≤ fatFindFreeCluster fs d ∧ fatFindFreeCluster fs d < top ∧
      entry fs d (fatFindFreeCluster fs d) = 0 := by
  obtain ⟨c, hc⟩ := Finset.card_pos.mp h
  obtain ⟨hct, hc2, h0⟩ := mem_freeBelow.mp hc
  obtain ⟨h1, h2, h3⟩ := fatFindFreeCluster_spec ha.volume (ha.cluster hc2 hct) h0
  exact ⟨h1.1, h3.trans_lt hct, h2⟩

/-- A directory takes an entry in its first free place. -/
theorem Tree.create {pre post : List Slot} {d₁ d₂ : Disk} {name : ℕ → UInt8} (attrib : UInt8)
    (keepTime : Bool) (ha : Area fs top) (ht : Tree fs top d objs) (hg : g ∈ objs)
    (hgd : g.dir = true) (hsl : slots fs g.chain = pre ++ x :: post)
    (hpre : ∀ y ∈ pre, freeAt fs d y = false) (hx : freeAt fs d x = true)
    (hfree : 0 < (freeBelow fs top d).card) (hname : NameOk name)
    (hattr : attrib &&& FAT_ATTRIBUTE_LONG_NAME ≠ FAT_ATTRIBUTE_LONG_NAME)
    (hd₁ : d₁ = fatAllocCluster fs d (fatFindFreeCluster fs d) FAT_EOC_MARK)
    (hd₂ : OnlyCluster fs (fatFindFreeCluster fs d) d₁ d₂)
    (hd' : d' = writeSector d₂ (fatClusterToSector32 fs x.1 + x.2.1)
      (fillEntry (sectorAt fs d x) x.2.2 name attrib (fatFindFreeCluster fs d) keepTime))
    (hempty : attrib &&& FAT_ATTRIBUTE_DIRECTORY = FAT_ATTRIBUTE_DIRECTORY →
      ∀ y ∈ slots fs [fatFindFreeCluster fs d], ownerAt fs d₂ y = none) :
    ∃ objs', Tree fs top d' objs' ∧
      ∀ z ∈ objs, z.dir = false → z ∈ objs' ∧ Intact fs d d' z := by
  obtain ⟨h2, hn, h0⟩ := ha.findFree hfree
  have hxg : x ∈ slots fs g.chain := by
    rw [hsl]
    exact List.mem_append_right _ List.mem_cons_self
  have hadd := ht.added ha hg hxg h2 hn h0 hname hattr hd₁ hd₂ hd' hempty
  refine ⟨_, ht.add ha hg hgd hsl hpre hx h2 hn h0 hadd, fun z hz hf => ⟨.tail _ hz, ?_⟩⟩
  have hv := ha.volume
  have hnc := ha.cluster h2 hn
  obtain ⟨hx1, hxj, -⟩ := mem_slots.mp hxg
  have honly : OnlyCluster fs x.1 d₂ d' := hd' ▸ writeSector_only hxj _
  have halloc := ht.intact_alloc hv hz hnc FAT_EOC_MARK d
  rw [← hd₁] at halloc
  exact (halloc.trans (hd₂.intact hv ht hz hnc (ht.not_mem_of_free h0 hz))).trans
    (honly.intact hv ht hz ((ht.chain g hg).cluster _ hx1) (ht.not_mem_file hz hf hg hgd hx1))

/-- A size is no part of what the tree depends on. -/
theorem sameTree_size (ha : Area fs top) (ht : Tree fs top d objs) (hg : g ∈ objs)
    (hxg : x ∈ slots fs g.chain) (v : ℕ) :
    SameTree fs d (writeSector d (fatClusterToSector32 fs x.1 + x.2.1)
      (write32 (sectorAt fs d x) (32 * x.2.2 + 28) v)) objs := by
  have hv := ha.volume
  obtain ⟨hx1, hxj, -⟩ := mem_slots.mp hxg
  have hxc := (ht.chain g hg).cluster _ hx1
  have hsame : ∀ z ∈ objs, ∀ y ∈ slots fs z.chain, SameEntry
      (sectorAt fs (writeSector d (fatClusterToSector32 fs x.1 + x.2.1)
        (write32 (sectorAt fs d x) (32 * x.2.2 + 28) v)) y) (sectorAt fs d y) y.2.2 := by
    intro z hz y hy
    obtain ⟨hy1, hyj, -⟩ := mem_slots.mp hy
    have hyc := (ht.chain z hz).cluster _ hy1
    by_cases hyx : y = x
    · rw [hyx, sectorAt_write_self]
      apply sameEntry_of <;> exact write32_of_ne _ _ _ (by omega)
    · apply sameEntry_write hv hxc hyc hxj hyj hyx
      intro p hp
      exact write32_of_ne _ _ _ (by omega)
  constructor
  · intro p hp
    exact (writeSector_only hxj _).entry hv hxc hp.2.2
  · exact fun z hz _ y hy => (hsame z hz y hy).owner
  · exact fun z hz _ y hy => (hsame z hz y hy).dir
  · exact fun z hz _ y hy => (hsame z hz y hy).ends

/-- The entry is marked as deleted, and the chain is freed. -/
theorem Tree.removed {d₁ : Disk} {head : ℕ} {tail : List ℕ} (ha : Area fs top)
    (ht : Tree fs top d (o :: rest)) (hg : g ∈ rest) (hgd : g.dir = true) (hxg : x ∈ slots fs g.chain)
    (hchain : o.chain = head :: tail) (hn : tail.length < n)
    (hd₁ : d₁ = writeSector d (fatClusterToSector32 fs x.1 + x.2.1)
      (Function.update (sectorAt fs d x) (32 * x.2.2) 0xE5)) :
    ∃ d', freeChain fs n d₁ head = some d' ∧ Removed fs d d' rest x o.chain ∧
      ∀ z ∈ rest, z.dir = false → Intact fs d d' z := by
  have hv := ha.volume
  have hm : ∀ z ∈ rest, z ∈ o :: rest := fun z hz => List.mem_cons_of_mem _ hz
  have hoc := ht.chain o List.mem_cons_self
  obtain ⟨hx1, hxj, -⟩ := mem_slots.mp hxg
  have hxc := (ht.chain g (hm g hg)).cluster _ hx1
  have honly : OnlyCluster fs x.1 d d₁ := hd₁ ▸ writeSector_only hxj _
  have hoc₁ : Chain fs d₁ (head :: tail) := by
    rw [← hchain]
    exact hoc.congr fun p hp => honly.entry hv hxc (hoc.cluster p hp).2.2
  obtain ⟨d', hd', hfree, hother, hsec⟩ := freeChain_spec hv hoc₁ hn
  have hsec' : ∀ y : Slot, fs.Cluster y.1 → sectorAt fs d' y = sectorAt fs d₁ y := by
    intro y hy
    have := hv.behind hy
    exact hsec _ (by omega)
  have hself : sectorAt fs d' x = Function.update (sectorAt fs d x) (32 * x.2.2) 0xE5 := by
    rw [hsec' x hxc, hd₁, sectorAt_write_self]
  have hsame : ∀ z ∈ rest, ∀ y ∈ slots fs z.chain, y ≠ x →
      SameEntry (sectorAt fs d' y) (sectorAt fs d y) y.2.2 := by
    intro z hz y hy hyx
    obtain ⟨hy1, hyj, -⟩ := mem_slots.mp hy
    have hyc := (ht.chain z (hm z hz)).cluster _ hy1
    rw [hsec' y hyc, hd₁]
    apply sameEntry_write hv hxc hyc hxj hyj hyx
    intro p hp
    exact Function.update_of_ne (by omega) _ _
  refine ⟨d', hd', ?_, ?_⟩
  swap
  · intro z hz hf
    apply (honly.intact hv ht (hm z hz) hxc
      (ht.not_mem_file (hm z hz) hf (hm g hg) hgd hx1)).trans
    intro p hp a _
    have := hv.behind ((ht.chain z (hm z hz)).cluster p hp)
    rw [content, content, hsec _ (by omega)]
  rw [hchain]
  constructor
  · exact hfree
  · intro p hp hpo
    rw [hother p hpo, honly.entry hv hxc hp.2.2]
  · exact fun z hz y hy hyx => (hsame z hz y hy hyx).owner
  · exact fun z hz y hy hyx => (hsame z hz y hy hyx).dir
  · exact fun z hz y hy hyx => (hsame z hz y hy hyx).ends
  · rw [ownerAt, hself]
    apply owner_of_deleted
    rw [isDeleted, Function.update_self]
    rfl
  · rw [endAt, hself, isEnd, Function.update_self]
    rfl

end Xeneva.Fat
