import Xeneva.Fs.Fat

/-!
# What the driver's accesses do to a volume

The table takes one sector after another from its first one on, the clusters lie behind it.
A table entry is written without touching a cluster, a cluster without touching the table or
another cluster.
-/

namespace Xeneva.Fat

variable {fs : FatFS} {d d' : Disk} {c c' : ℕ}

theorem byte_toNat (v k : ℕ) : (byte v k).toNat = v / 2 ^ (8 * k) % 256 := by
  simp [byte]

theorem read32_write32 (s : Sector) (o v : ℕ) (h : v < 2 ^ 32) :
    read32 (write32 s o v) o = v := by
  have h0 : write32 s o v o = byte v 0 := by simp [write32]
  have h1 : write32 s o v (o + 1) = byte v 1 := by simp [write32]
  have h2 : write32 s o v (o + 2) = byte v 2 := by simp [write32]
  have h3 : write32 s o v (o + 3) = byte v 3 := by simp [write32]
  rw [read32, h0, h1, h2, h3]
  simp only [byte_toNat]
  omega

theorem write32_of_ne (s : Sector) (o v : ℕ) {p : ℕ} (h : p < o ∨ o + 4 ≤ p) :
    write32 s o v p = s p := by
  rw [write32, if_neg (by omega)]

theorem read32_congr {s t : Sector} {o : ℕ} (h : ∀ p, o ≤ p → p < o + 4 → s p = t p) :
    read32 s o = read32 t o := by
  rw [read32, read32, h o (by omega) (by omega), h (o + 1) (by omega) (by omega),
    h (o + 2) (by omega) (by omega), h (o + 3) (by omega) (by omega)]

theorem read32_lt (s : Sector) (o : ℕ) : read32 s o < 2 ^ 32 := by
  have h0 := (s o).toNat_lt
  have h1 := (s (o + 1)).toNat_lt
  have h2 := (s (o + 2)).toNat_lt
  have h3 := (s (o + 3)).toNat_lt
  rw [read32]
  omega

/-- A volume of 512-byte sectors and clusters of at most a page: the table ends before the
clusters, and every cluster has a 28-bit number and a 32-bit block address. -/
structure Volume (fs : FatFS) : Prop where
  bytes : fs.bytesPerSector = 512
  some : 0 < fs.sectorPerCluster
  page : fs.sectorPerCluster ≤ 8
  order : fs.fatBeginLBA + fs.sectorPerFAT32 ≤ fs.clusterBeginLBA
  count : fs.totalClusters ≤ FAT_BAD_CLUSTER % 2 ^ 28
  span : fs.clusterBeginLBA + fs.totalClusters * fs.sectorPerCluster ≤ 2 ^ 32

/-- A cluster of the data area that has an entry in the table. -/
def FatFS.Cluster (fs : FatFS) (c : ℕ) : Prop :=
  2 ≤ c ∧ c < fs.totalClusters ∧ c < fs.sectorPerFAT32 * 128

/-- A table entry, with the four bits that the driver does not use. -/
def entry (fs : FatFS) (d : Disk) (c : ℕ) : ℕ :=
  read32 (d (fatSector fs c)) (c * 4 % fs.bytesPerSector)

def content (fs : FatFS) (d : Disk) (c : ℕ) : ℕ → UInt8 := fun a =>
  d (fatClusterToSector32 fs c + a / 512) (a % 512)

theorem fatReadFAT_eq : fatReadFAT fs d c = entry fs d c % 2 ^ 28 := rfl

theorem Volume.size (hv : Volume fs) : fs.cluster_sz_in_bytes = fs.sectorPerCluster * 512 := by
  rw [FatFS.cluster_sz_in_bytes, hv.bytes]

/-- The layout of a volume whose clusters may be of any size. -/
structure Layout (fs : FatFS) : Prop where
  bytes : fs.bytesPerSector = 512
  order : fs.fatBeginLBA + fs.sectorPerFAT32 ≤ fs.clusterBeginLBA
  count : fs.totalClusters ≤ FAT_BAD_CLUSTER % 2 ^ 28
  span : fs.clusterBeginLBA + fs.totalClusters * fs.sectorPerCluster < 2 ^ 64

theorem Volume.layout (hv : Volume fs) : Layout fs where
  bytes := hv.bytes
  order := hv.order
  count := hv.count
  span := hv.span.trans_lt (by decide)

theorem Layout.sector (hl : Layout fs) (hc : fs.Cluster c) :
    fatClusterToSector32 fs c = fs.clusterBeginLBA + (c - 2) * fs.sectorPerCluster := by
  have h1 : c < 2 ^ 28 := lt_of_lt_of_le hc.2.1 (hl.count.trans (by decide))
  have h2 : (c + 2 ^ 64 - 2) % 2 ^ 64 = c - 2 := by
    have := hc.1
    omega
  have h3 : (c - 2) * fs.sectorPerCluster ≤ fs.totalClusters * fs.sectorPerCluster :=
    Nat.mul_le_mul_right _ (by have := hc.2.1; omega)
  have h4 := hl.span
  rw [fatClusterToSector32, h2, Nat.mod_eq_of_lt (by omega)]

theorem Volume.sector (hv : Volume fs) (hc : fs.Cluster c) :
    fatClusterToSector32 fs c = fs.clusterBeginLBA + (c - 2) * fs.sectorPerCluster :=
  hv.layout.sector hc

theorem Volume.sector_end (hv : Volume fs) (hc : fs.Cluster c) :
    fatClusterToSector32 fs c + fs.sectorPerCluster ≤ 2 ^ 32 := by
  have h1 : (c - 2 + 1) * fs.sectorPerCluster ≤ fs.totalClusters * fs.sectorPerCluster :=
    Nat.mul_le_mul_right _ (by have := hc.2.1; omega)
  have h2 := hv.span
  rw [Nat.add_mul, Nat.one_mul] at h1
  rw [hv.sector hc]
  omega

/-- The sectors of two clusters are apart. -/
theorem Volume.apart (hv : Volume fs) (hc : fs.Cluster c) (hc' : fs.Cluster c') (h : c ≠ c') :
    fatClusterToSector32 fs c + fs.sectorPerCluster ≤ fatClusterToSector32 fs c' ∨
      fatClusterToSector32 fs c' + fs.sectorPerCluster ≤ fatClusterToSector32 fs c := by
  rw [hv.sector hc, hv.sector hc']
  have h1 := hc.1
  have h2 := hc'.1
  rcases Nat.lt_or_gt_of_ne h with hlt | hgt
  · have := Nat.mul_le_mul_right fs.sectorPerCluster (show c - 2 + 1 ≤ c' - 2 by omega)
    rw [Nat.add_mul, Nat.one_mul] at this
    omega
  · have := Nat.mul_le_mul_right fs.sectorPerCluster (show c' - 2 + 1 ≤ c - 2 by omega)
    rw [Nat.add_mul, Nat.one_mul] at this
    omega

theorem Layout.fat_lt (hl : Layout fs) (hc : c < fs.sectorPerFAT32 * 128) :
    fatSector fs c < fs.clusterBeginLBA := by
  have := hl.order
  rw [fatSector, hl.bytes]
  omega

theorem Volume.fat_lt (hv : Volume fs) (hc : c < fs.sectorPerFAT32 * 128) :
    fatSector fs c < fs.clusterBeginLBA := hv.layout.fat_lt hc

theorem Layout.behind (hl : Layout fs) (hc : fs.Cluster c) :
    fs.clusterBeginLBA ≤ fatClusterToSector32 fs c := by
  rw [hl.sector hc]
  omega

theorem Volume.behind (hv : Volume fs) (hc : fs.Cluster c) :
    fs.clusterBeginLBA ≤ fatClusterToSector32 fs c := hv.layout.behind hc

/-- Only the sectors of a cluster differ. -/
def OnlyCluster (fs : FatFS) (c : ℕ) (d d' : Disk) : Prop :=
  ∀ q, q < fatClusterToSector32 fs c ∨ fatClusterToSector32 fs c + fs.sectorPerCluster ≤ q →
    d' q = d q

theorem OnlyCluster.entry (hv : Volume fs) (hc : fs.Cluster c) (h : OnlyCluster fs c d d')
    (hc' : c' < fs.sectorPerFAT32 * 128) : entry fs d' c' = entry fs d c' := by
  have h1 := hv.fat_lt hc'
  have h2 := hv.behind hc
  rw [Fat.entry, Fat.entry, h _ (by omega)]

theorem OnlyCluster.sector (hv : Volume fs) (hc : fs.Cluster c) (h : OnlyCluster fs c d d')
    (hc' : fs.Cluster c') (hne : c' ≠ c) {j : ℕ} (hj : j < fs.sectorPerCluster) :
    d' (fatClusterToSector32 fs c' + j) = d (fatClusterToSector32 fs c' + j) := by
  have := hv.apart hc' hc hne
  exact h _ (by omega)

theorem Volume.sector_of (hv : Volume fs) {a : ℕ} (ha : a < fs.cluster_sz_in_bytes) :
    a / 512 < fs.sectorPerCluster := by
  rw [hv.size] at ha
  omega

theorem OnlyCluster.content (hv : Volume fs) (hc : fs.Cluster c) (h : OnlyCluster fs c d d')
    (hc' : fs.Cluster c') (hne : c' ≠ c) {a : ℕ} (ha : a < fs.cluster_sz_in_bytes) :
    content fs d' c' a = content fs d c' a := by
  rw [Fat.content, Fat.content, h.sector hv hc hc' hne (hv.sector_of ha)]

theorem auVDiskWrite_only {k : ℕ} (hk : k ≤ fs.sectorPerCluster) (buffer : ℕ → UInt8) :
    OnlyCluster fs c d (auVDiskWrite fs d (fatClusterToSector32 fs c) k buffer) := by
  intro q hq
  rw [auVDiskWrite, if_neg (by omega)]

theorem writeSector_only {j : ℕ} (hj : j < fs.sectorPerCluster) (s : Sector) :
    OnlyCluster fs c d (writeSector d (fatClusterToSector32 fs c + j) s) := by
  intro q hq
  rw [writeSector, Function.update_of_ne (by omega)]

theorem content_write (hv : Volume fs) (buffer : ℕ → UInt8) {a : ℕ}
    (ha : a < fs.cluster_sz_in_bytes) :
    content fs (auVDiskWrite fs d (fatClusterToSector32 fs c) fs.sectorPerCluster buffer) c a =
      buffer a := by
  have h1 := hv.sector_of ha
  have h2 : a < PAGE_SIZE := by
    have := hv.page
    rw [hv.size] at ha
    rw [PAGE_SIZE]
    omega
  have h3 : a / 512 * 512 + a % 512 = a := by omega
  rw [content, auVDiskWrite, if_pos (by omega)]
  simp only [hv.bytes, Nat.add_sub_cancel_left, h3, if_pos h2]

/-- The entry of a position that is not ignored; the four bits in front stay. -/
theorem entry_alloc_self (hb : fs.bytesPerSector = 512) (h2 : 2 ≤ c) (h31 : c < 2 ^ 31)
    (ht : fs.totalClusters = 0 ∨ c < fs.totalClusters) (v : ℕ) :
    entry fs (fatAllocCluster fs d c v) c = entry fs d c / 2 ^ 28 * 2 ^ 28 + v % 2 ^ 28 := by
  have h4 := read32_lt (d (fs.fatBeginLBA + c * 4 / 512)) (c * 4 % 512)
  rw [fatAllocCluster, if_neg (by omega)]
  simp only [entry, fatSector, hb, writeSector, if_pos (show ¬ 512 = 0 by omega), ne_eq,
    Function.update_self]
  rw [read32_write32 _ _ _ (by omega)]

theorem Layout.entry_alloc (hl : Layout fs) (hc : fs.Cluster c) (v : ℕ) :
    entry fs (fatAllocCluster fs d c v) c = entry fs d c / 2 ^ 28 * 2 ^ 28 + v % 2 ^ 28 := by
  have h1 : c < 2 ^ 28 := lt_of_lt_of_le hc.2.1 (hl.count.trans (by decide))
  exact entry_alloc_self hl.bytes hc.1 (by omega) (.inr hc.2.1) v

theorem entry_alloc (hv : Volume fs) (hc : fs.Cluster c) (v : ℕ) :
    entry fs (fatAllocCluster fs d c v) c = entry fs d c / 2 ^ 28 * 2 ^ 28 + v % 2 ^ 28 :=
  hv.layout.entry_alloc hc v

/-- A byte of the table entry of a cluster. -/
def InEntry (fs : FatFS) (c q o : ℕ) : Prop :=
  q = fatSector fs c ∧ c * 4 % fs.bytesPerSector ≤ o ∧ o < c * 4 % fs.bytesPerSector + 4

/-- A table entry is written, and no other byte. -/
theorem byte_alloc (hb : fs.bytesPerSector = 512) (v : ℕ) {q o : ℕ} (h : ¬ InEntry fs c q o) :
    fatAllocCluster fs d c v q o = d q o := by
  rw [InEntry, fatSector, hb] at h
  rw [fatAllocCluster]
  split_ifs with hr
  · rfl
  · simp only [hb, writeSector]
    by_cases hq : q = fs.fatBeginLBA + c * 4 / 512
    · rw [hq, Function.update_self]
      exact write32_of_ne _ _ _ (by omega)
    · rw [Function.update_of_ne hq]
  · omega

/-- Two entries share no byte. -/
theorem entry_alloc_ne (hb : fs.bytesPerSector = 512) (v : ℕ) (h : c' ≠ c) :
    entry fs (fatAllocCluster fs d c v) c' = entry fs d c' := by
  apply read32_congr
  intro p hp hp'
  apply byte_alloc hb
  rw [InEntry, fatSector, fatSector, hb]
  rw [hb] at hp hp'
  omega

theorem entry_alloc_of_ne (hv : Volume fs) (v : ℕ) (h : c' ≠ c) :
    entry fs (fatAllocCluster fs d c v) c' = entry fs d c' := entry_alloc_ne hv.bytes v h

/-- No cluster is touched. -/
theorem sector_alloc (hv : Volume fs) (hc : c < fs.sectorPerFAT32 * 128) (v : ℕ) {q : ℕ}
    (hq : fs.clusterBeginLBA ≤ q) : fatAllocCluster fs d c v q = d q := by
  have h1 := hv.fat_lt hc
  rw [fatSector, hv.bytes] at h1
  rw [fatAllocCluster]
  split_ifs with hr hz
  · rfl
  · simp only [writeSector, hv.bytes]
    rw [Function.update_of_ne (by omega)]
  · exact absurd hv.bytes (by omega)

theorem content_alloc (hv : Volume fs) (hc : fs.Cluster c) (hc' : fs.Cluster c') (v : ℕ) {a : ℕ} :
    content fs (fatAllocCluster fs d c v) c' a = content fs d c' a := by
  have := hv.behind hc'
  rw [content, content, sector_alloc hv hc.2.2 v (by omega)]

theorem entry_eq (hv : Volume fs) (i k : ℕ) (hk : k < 128) :
    entry fs d (i * 128 + k) = read32 (d (fs.fatBeginLBA + i)) (k * 4) := by
  have h1 : (i * 128 + k) * 4 / 512 = i := by omega
  have h2 : (i * 128 + k) * 4 % 512 = k * 4 := by omega
  rw [entry, fatSector, hv.bytes, h1, h2]

theorem freeEntry_ne_none (hv : Volume fs) {s : Sector} {last k : ℕ} (hk : k < 128)
    (h0 : read32 s (k * 4) = 0) (hl : ¬ (last = 0 ∧ k ≤ 1)) : freeEntry fs s last ≠ none := by
  intro hf
  rw [freeEntry, List.find?_eq_none, hv.bytes] at hf
  exact hf k (List.mem_range.mpr hk) (decide_eq_true ⟨h0, hl⟩)

theorem findFreeLoop_spec (hv : Volume fs) (hc : fs.Cluster c) (h0 : entry fs d c = 0)
    (n i last : ℕ) (hn : i + n = fs.sectorPerFAT32) (hi : i * 128 ≤ c) (hl : last = 0 ↔ i = 0) :
    fs.Cluster (findFreeLoop fs d n i last) ∧ entry fs d (findFreeLoop fs d n i last) = 0 ∧
      findFreeLoop fs d n i last ≤ c := by
  have hb : fs.bytesPerSector / 4 = 128 := by rw [hv.bytes]
  have hc28 : c < 2 ^ 28 := lt_of_lt_of_le hc.2.1 (hv.count.trans (by decide))
  obtain ⟨h2, ht, hT⟩ := hc
  induction n generalizing i last with
  | zero => omega
  | succ n ih =>
    rw [findFreeLoop]
    cases hf : freeEntry fs (d (fs.fatBeginLBA + i)) last with
    | none =>
      -- the free entry is not in this sector
      have hlt : i * 128 + 128 ≤ c := by
        by_contra hlt
        have hk : c = i * 128 + (c - i * 128) := by omega
        rw [hk, entry_eq hv _ _ (by omega)] at h0
        exact freeEntry_ne_none hv (by omega) h0 (by omega) hf
      simp only [hb]
      apply ih
      · omega
      · omega
      · omega
    | some m =>
      rw [freeEntry, List.find?_range_eq_some, hb] at hf
      obtain ⟨hd, hm, hmin⟩ := hf
      obtain ⟨hz, hml⟩ := of_decide_eq_true hd
      have hm := List.mem_range.mp hm
      have hle : i * 128 + m ≤ c := by
        by_contra hgt
        have hk : c = i * 128 + (c - i * 128) := by omega
        rw [hk, entry_eq hv _ _ (by omega)] at h0
        have := hmin (c - i * 128) (by omega)
        rw [Bool.not_eq_true', decide_eq_false_iff_not] at this
        exact this ⟨h0, by omega⟩
      simp only [hb]
      rw [Nat.mod_eq_of_lt (by omega)]
      refine ⟨⟨by omega, by omega, by omega⟩, ?_, hle⟩
      rw [entry_eq hv _ _ hm, hz]

/-- Where a cluster is free, the search finds one, and none behind it. -/
theorem fatFindFreeCluster_spec (hv : Volume fs) (hc : fs.Cluster c) (h0 : entry fs d c = 0) :
    fs.Cluster (fatFindFreeCluster fs d) ∧ entry fs d (fatFindFreeCluster fs d) = 0 ∧
      fatFindFreeCluster fs d ≤ c :=
  findFreeLoop_spec hv hc h0 _ 0 0 (Nat.zero_add _) (by omega) (by omega)

end Xeneva.Fat
