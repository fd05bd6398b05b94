import Xeneva.Fs.FatTable

/-!
# A file that is being written

The clusters of the file form a chain in the table, the last one marked. A call appends one
cluster a page, so the clusters in order hold the stream of pages.
-/

namespace Xeneva.Fat

variable {fs : FatFS} {d d' : Disk} {cs : List ℕ} {c : ℕ}

/-! ## Chains -/

/-- A chain of used clusters, each one's entry the next one's number, the last one marked. -/
structure Chain (fs : FatFS) (d : Disk) (cs : List ℕ) : Prop where
  cluster : ∀ c ∈ cs, fs.Cluster c
  nodup : cs.Nodup
  link : ∀ i a b, cs[i]? = some a → cs[i + 1]? = some b → fatReadFAT fs d a = b
  mark : ∀ a, cs[cs.length - 1]? = some a → isEoc (fatReadFAT fs d a) = true

theorem Chain.congr (h : Chain fs d cs) (he : ∀ c ∈ cs, entry fs d' c = entry fs d c) :
    Chain fs d' cs where
  cluster := h.cluster
  nodup := h.nodup
  link i a b ha hb := by
    rw [fatReadFAT_eq, he a (List.mem_of_getElem? ha)]
    exact h.link i a b ha hb
  mark a ha := by
    rw [fatReadFAT_eq, he a (List.mem_of_getElem? ha)]
    exact h.mark a ha

/-- No entry of a chain is free: it is the next one's number or a mark. -/
theorem Chain.used (h : Chain fs d cs) (hc : c ∈ cs) : fatReadFAT fs d c ≠ 0 := by
  obtain ⟨i, hi⟩ := List.mem_iff_getElem?.mp hc
  have hlt := (List.getElem?_eq_some_iff.mp hi).1
  by_cases hl : i + 1 < cs.length
  · rw [h.link i c _ hi (List.getElem?_eq_getElem hl)]
    have := (h.cluster _ (List.getElem_mem hl)).1
    omega
  · have hm := h.mark c (by rwa [show cs.length - 1 = i by omega])
    intro h0
    rw [h0] at hm
    exact absurd hm (by decide)

theorem entry_ne_zero (h : fatReadFAT fs d c ≠ 0) : entry fs d c ≠ 0 := by
  intro h0
  apply h
  rw [fatReadFAT_eq, h0, Nat.zero_mod]

/-- The last cluster's entry takes a new cluster, which is marked. -/
theorem Chain.append {l new : ℕ} (h : Chain fs d cs) (hl : cs[cs.length - 1]? = some l)
    (hn : fs.Cluster new) (h0 : entry fs d new = 0)
    (he : ∀ c ∈ cs, c ≠ l → entry fs d' c = entry fs d c)
    (hlink : fatReadFAT fs d' l = new) (hmark : isEoc (fatReadFAT fs d' new) = true) :
    Chain fs d' (cs ++ [new]) where
  cluster c hc := by
    rcases List.mem_append.mp hc with hc | hc
    · exact h.cluster c hc
    · rwa [List.mem_singleton.mp hc]
  nodup := by
    apply h.nodup.append (List.nodup_singleton new)
    intro c hc hc'
    rw [List.mem_singleton.mp hc'] at hc
    exact entry_ne_zero (h.used hc) h0
  link i a b ha hb := by
    have hlt : i + 1 < (cs ++ [new]).length := (List.getElem?_eq_some_iff.mp hb).1
    rw [List.length_append, List.length_singleton] at hlt
    rw [List.getElem?_append_left (by omega)] at ha
    by_cases hi : i + 1 < cs.length
    · rw [List.getElem?_append_left hi] at hb
      have hal : a ≠ l := by
        intro hal
        rw [hal, ← hl] at ha
        have := (List.getElem?_inj (by omega) h.nodup).mp ha
        omega
      rw [fatReadFAT_eq, he a (List.mem_of_getElem? ha) hal]
      exact h.link i a b ha hb
    · have hi' : i + 1 = cs.length := by omega
      have hi2 : i = cs.length - 1 := by omega
      rw [hi', List.getElem?_concat_length] at hb
      rw [hi2, hl] at ha
      cases ha
      cases hb
      exact hlink
  mark a ha := by
    rw [List.length_append, List.length_singleton, Nat.add_sub_cancel,
      List.getElem?_concat_length] at ha
    cases ha
    exact hmark

theorem walk_succ (n c : ℕ) : walk fs d (n + 1) c = fatReadFAT fs d (walk fs d n c) :=
  Function.iterate_succ_apply' _ n c

/-- `k` steps from the first cluster lead to the `k`th. -/
theorem Chain.walk {a b : ℕ} (h : Chain fs d cs) (ha : cs[0]? = some a) (k : ℕ)
    (hb : cs[k]? = some b) : walk fs d k a = b := by
  induction k generalizing b with
  | zero =>
    rw [ha] at hb
    cases hb
    rfl
  | succ k ih =>
    have hk : k < cs.length := by
      have := (List.getElem?_eq_some_iff.mp hb).1
      omega
    have hm := List.getElem?_eq_getElem hk
    rw [walk_succ, ih hm]
    exact h.link k _ _ hm hb

theorem Layout.not_isEoc (hl : Layout fs) (hc : fs.Cluster c) : isEoc c = false := by
  have h1 : c < FAT_BAD_CLUSTER % 2 ^ 28 := lt_of_lt_of_le hc.2.1 hl.count
  rw [FAT_BAD_CLUSTER] at h1
  rw [isEoc, decide_eq_false_iff_not, FAT_EOC_MARK]
  omega

theorem FatFS.Cluster.not_isEoc (hv : Volume fs) (hc : fs.Cluster c) : isEoc c = false :=
  hv.layout.not_isEoc hc

def free (fs : FatFS) (d : Disk) : Finset ℕ :=
  (Finset.range (min fs.totalClusters (fs.sectorPerFAT32 * 128))).filter fun c =>
    2 ≤ c ∧ entry fs d c = 0

theorem mem_free : c ∈ free fs d ↔ fs.Cluster c ∧ entry fs d c = 0 := by
  rw [free, Finset.mem_filter, Finset.mem_range, FatFS.Cluster]
  omega

theorem fatFindFreeCluster_of_free (hv : Volume fs) (h : 0 < (free fs d).card) :
    fs.Cluster (fatFindFreeCluster fs d) ∧ entry fs d (fatFindFreeCluster fs d) = 0 := by
  obtain ⟨c, hc⟩ := Finset.card_pos.mp h
  obtain ⟨h1, h0⟩ := mem_free.mp hc
  obtain ⟨h2, h3, -⟩ := fatFindFreeCluster_spec hv h1 h0
  exact ⟨h2, h3⟩

/-- A new cluster is the only one that is taken. -/
theorem card_free_le (new : ℕ) (he : ∀ c, fs.Cluster c → entry fs d c = 0 → c ≠ new →
    entry fs d' c = 0) : (free fs d).card ≤ (free fs d').card + 1 := by
  have hs : free fs d ⊆ insert new (free fs d') := by
    intro c hc
    obtain ⟨h1, h0⟩ := mem_free.mp hc
    by_cases hn : c = new
    · exact Finset.mem_insert.mpr (.inl hn)
    · exact Finset.mem_insert_of_mem (mem_free.mpr ⟨h1, he c h1 h0 hn⟩)
  exact (Finset.card_le_card hs).trans (Finset.card_insert_le new _)

/-- The chain grows into free clusters, and everything outside of it stays as it is. -/
structure Beside (fs : FatFS) (d : Disk) (cs : List ℕ) (d' : Disk) (cs' : List ℕ) : Prop where
  sub : cs ⊆ cs'
  out : ∀ p, fs.Cluster p → entry fs d p ≠ 0 → p ∉ cs → p ∉ cs'
  entry : ∀ p, fs.Cluster p → p ∉ cs' → entry fs d' p = entry fs d p
  sector : ∀ p, fs.Cluster p → p ∉ cs' → ∀ j < fs.sectorPerCluster,
    d' (fatClusterToSector32 fs p + j) = d (fatClusterToSector32 fs p + j)

theorem Beside.refl : Beside fs d cs d cs :=
  ⟨fun _ h => h, fun _ _ _ h => h, fun _ _ _ => rfl, fun _ _ _ _ _ => rfl⟩

theorem Beside.trans {d'' : Disk} {cs' cs'' : List ℕ} (h : Beside fs d cs d' cs')
    (h' : Beside fs d' cs' d'' cs'') : Beside fs d cs d'' cs'' := by
  have hn : ∀ p, p ∉ cs'' → p ∉ cs' := fun p hp hm => hp (h'.sub hm)
  constructor
  · exact fun _ hc => h'.sub (h.sub hc)
  · intro p hp hz hc
    have hc' := h.out p hp hz hc
    apply h'.out p hp _ hc'
    rw [h.entry p hp hc']
    exact hz
  · intro p hp hc
    rw [h'.entry p hp hc, h.entry p hp (hn p hc)]
  · intro p hp hc j hj
    rw [h'.sector p hp hc j hj, h.sector p hp (hn p hc) j hj]

/-! ## Writing a cluster -/

/-- `pos` clusters of the file hold the stream; `need` clusters will be in use at the end. -/
structure Holds (fs : FatFS) (d : Disk) (file : AuVFSNode) (cs : List ℕ) (stream : ℕ → UInt8)
    (need : ℕ) : Prop where
  chain : Chain fs d cs
  first : cs[0]? = some file.first_block
  last : cs[cs.length - 1]? = some file.current
  eof : file.eof = decide (0 < file.pos)
  length : cs.length = max 1 file.pos
  kept : ∀ i c, cs[i]? = some c → i < file.pos → ∀ a < fs.cluster_sz_in_bytes,
    content fs d c a = stream (i * fs.cluster_sz_in_bytes + a)
  fresh : file.last_resolved_cluster = 0
  room : need ≤ cs.length + (free fs d).card

/-- The node after a page went into `cluster`, whose table entry is `next`. -/
def AuVFSNode.wrote (file : AuVFSNode) (fs : FatFS) (cluster next : ℕ) : AuVFSNode :=
  { file with
    pos := file.pos + 1
    size := (file.pos + 1) * fs.sectorPerCluster * fs.bytesPerSector
    eof := isEoc next
    current := if isEoc next then cluster else next }

/-- The same for the last cluster of the chain. -/
def AuVFSNode.written (file : AuVFSNode) (fs : FatFS) (cluster : ℕ) : AuVFSNode :=
  { file with
    pos := file.pos + 1
    size := (file.pos + 1) * fs.sectorPerCluster * fs.bytesPerSector
    eof := true
    current := cluster }

/-- The end of the chain, where the next page goes, and the disk with it. -/
structure Ready (fs : FatFS) (d : Disk) (file : AuVFSNode) (cs : List ℕ) (stream : ℕ → UInt8)
    (need cluster : ℕ) : Prop where
  chain : Chain fs d cs
  first : cs[0]? = some file.first_block
  last : cs[file.pos]? = some cluster
  length : cs.length = file.pos + 1
  kept : ∀ i c, cs[i]? = some c → i < file.pos → ∀ a < fs.cluster_sz_in_bytes,
    content fs d c a = stream (i * fs.cluster_sz_in_bytes + a)
  fresh : file.last_resolved_cluster = 0
  room : need ≤ cs.length + (free fs d).card

section
variable {file : AuVFSNode} {stream : ℕ → UInt8} {need cluster : ℕ} (buffer : ℕ → UInt8)

theorem OnlyCluster.trans {d'' : Disk} (h : OnlyCluster fs c d d') (h' : OnlyCluster fs c d' d'') :
    OnlyCluster fs c d d'' := by
  intro q hq
  rw [h' q hq, h q hq]

theorem OnlyCluster.free (hv : Volume fs) (hc : fs.Cluster c) (h : OnlyCluster fs c d d') :
    free fs d' = free fs d := by
  ext p
  rw [mem_free, mem_free]
  apply and_congr_right
  intro hp
  rw [h.entry hv hc hp.2.2]

theorem OnlyCluster.beside (hv : Volume fs) (hc : fs.Cluster c) (h : OnlyCluster fs c d d')
    (hcs : c ∈ cs) : Beside fs d cs d' cs where
  sub := List.Subset.refl cs
  out _ _ _ hn := hn
  entry _ hp _ := h.entry hv hc hp.2.2
  sector p hp hn j hj := by
    apply h.sector hv hc hp _ hj
    rintro rfl
    exact hn hcs

/-- The page is written, and the file ends with it. -/
theorem Ready.page (hv : Volume fs) (h : Ready fs d file cs stream need cluster)
    (hb : ∀ a < fs.cluster_sz_in_bytes,
      buffer a = stream (file.pos * fs.cluster_sz_in_bytes + a))
    (hd : OnlyCluster fs cluster d d')
    (hw : ∀ a < fs.cluster_sz_in_bytes, content fs d' cluster a = buffer a) :
    Holds fs d' (file.written fs cluster) cs stream need := by
  have hmem := List.mem_of_getElem? h.last
  have hc := h.chain.cluster _ hmem
  have hl : cs.length - 1 = file.pos := by
    rw [h.length, Nat.add_sub_cancel]
  constructor
  · exact h.chain.congr fun p hp => hd.entry hv hc (h.chain.cluster p hp).2.2
  · exact h.first
  · rw [hl]
    exact h.last
  · exact (decide_eq_true (Nat.succ_pos _)).symm
  · rw [h.length]
    exact (Nat.max_eq_right (Nat.succ_le_succ (Nat.zero_le _))).symm
  · intro i p hp hi a ha
    by_cases hpc : p = cluster
    · have hil : i = file.pos := by
        rw [hpc, ← h.last] at hp
        have hlt := (List.getElem?_eq_some_iff.mp h.last).1
        by_contra hne
        exact hne ((List.getElem?_inj hlt h.chain.nodup).mp hp.symm).symm
      rw [hpc, hil, hw a ha, hb a ha]
    · have hil : i ≠ file.pos := by
        rintro rfl
        rw [h.last] at hp
        exact hpc (Option.some.inj hp).symm
      rw [hd.content hv hc (h.chain.cluster p (List.mem_of_getElem? hp)) hpc ha]
      exact h.kept i p hp (by have : i < file.pos + 1 := hi; omega) a ha
  · exact h.fresh
  · rw [hd.free hv hc]
    exact h.room

/-- A new cluster behind the last one. -/
theorem Holds.extend {new : ℕ} (hv : Volume fs) (h : Holds fs d file cs stream need)
    (hpos : 0 < file.pos) (hn : fs.Cluster new) (h0 : entry fs d new = 0)
    (hd : d' = fatAllocCluster fs (fatAllocCluster fs d file.current new) new FAT_EOC_MARK) :
    Ready fs d' file (cs ++ [new]) stream need new ∧ Beside fs d cs d' (cs ++ [new]) := by
  have hcur := h.chain.cluster _ (List.mem_of_getElem? h.last)
  have hne : file.current ≠ new := by
    intro he
    apply entry_ne_zero (h.chain.used (List.mem_of_getElem? h.last))
    rw [he, h0]
  have hlen : cs.length = file.pos := by
    rw [h.length, Nat.max_eq_right hpos]
  have hnew : entry fs d' new = FAT_EOC_MARK % 2 ^ 28 := by
    rw [hd, entry_alloc hv hn, entry_alloc_of_ne hv _ hne.symm, h0, Nat.zero_div, Nat.zero_mul,
      Nat.zero_add]
  have hother : ∀ p, p ≠ new → p ≠ file.current → entry fs d' p = entry fs d p := by
    intro p h1 h2
    rw [hd, entry_alloc_of_ne hv _ h1, entry_alloc_of_ne hv _ h2]
  have hnot : new ∉ cs := fun hm => entry_ne_zero (h.chain.used hm) h0
  have hlink : fatReadFAT fs d' file.current = new := by
    have h28 : new < 2 ^ 28 := lt_of_lt_of_le hn.2.1 (hv.count.trans (by decide))
    rw [fatReadFAT_eq, hd, entry_alloc_of_ne hv _ hne, entry_alloc hv hcur]
    omega
  constructor
  · constructor
    · apply h.chain.append h.last hn h0 _ hlink
      · rw [fatReadFAT_eq, hnew]
        decide
      · intro p hp hpl
        exact hother p (fun he => hnot (he ▸ hp)) hpl
    · rw [List.getElem?_append_left (by omega)]
      exact h.first
    · rw [← hlen, List.getElem?_concat_length]
    · rw [List.length_append, hlen, List.length_singleton]
    · intro i p hp hi a ha
      rw [List.getElem?_append_left (by omega)] at hp
      have hpc := h.chain.cluster p (List.mem_of_getElem? hp)
      rw [hd, content_alloc hv hn hpc, content_alloc hv hcur hpc]
      exact h.kept i p hp hi a ha
    · exact h.fresh
    · have hcard : (free fs d).card ≤ (free fs d').card + 1 := by
        apply card_free_le new
        intro p hp hz hpn
        rw [hother p hpn _, hz]
        rintro rfl
        exact entry_ne_zero (h.chain.used (List.mem_of_getElem? h.last)) hz
      have := h.room
      rw [List.length_append, List.length_singleton]
      omega
  · constructor
    · exact List.subset_append_left cs [new]
    · intro p hp hz hpn hm
      rcases List.mem_append.mp hm with hm | hm
      · exact hpn hm
      · rw [List.mem_singleton.mp hm] at hz
        exact hz h0
    · intro p hp hpn
      rw [List.mem_append, List.mem_singleton, not_or] at hpn
      apply hother p hpn.2
      rintro rfl
      exact hpn.1 (List.mem_of_getElem? h.last)
    · intro p hp hpn j hj
      have hq := hv.behind hp
      rw [hd, sector_alloc hv hn.2.2 _ (by omega), sector_alloc hv hcur.2.2 _ (by omega)]

theorem AuVFSNode.wrote_of_mark {next : ℕ} (h : isEoc next = true) :
    file.wrote fs cluster next = file.written fs cluster := by
  simp only [AuVFSNode.wrote, AuVFSNode.written, h, if_true]

/-- What the write does once the cluster is known. -/
theorem fatFileWriteContent_eq (d : Disk) {d₁ : Disk} (hv : Volume fs)
    (hsel : (if file.eof then
        (fatClearCluster fs (fatAllocCluster fs (fatAllocCluster fs d file.current
          (fatFindFreeCluster fs d)) (fatFindFreeCluster fs d) FAT_EOC_MARK)
          (fatFindFreeCluster fs d), fatFindFreeCluster fs d)
      else (d, file.current)) = (d₁, cluster))
    (hc : fs.Cluster cluster) :
    fatFileWriteContent fs d file buffer =
      (auVDiskWrite fs d₁ (fatClusterToSector32 fs cluster) fs.sectorPerCluster buffer,
        file.wrote fs cluster (fatReadFAT fs d₁ cluster)) := by
  have hlt : cluster < FAT_BAD_CLUSTER % 2 ^ 28 := lt_of_lt_of_le hc.2.1 hv.count
  have hok : ¬ isEoc cluster = true ∧ cluster ≠ FAT_BAD_CLUSTER % 2 ^ 28 := by
    rw [hc.not_isEoc hv]
    exact ⟨Bool.false_ne_true, hlt.ne⟩
  have hread : fatReadFAT fs (auVDiskWrite fs d₁ (fatClusterToSector32 fs cluster)
      fs.sectorPerCluster buffer) cluster = fatReadFAT fs d₁ cluster := by
    rw [fatReadFAT_eq, (auVDiskWrite_only le_rfl buffer).entry hv hc hc.2.2, ← fatReadFAT_eq]
  unfold fatFileWriteContent
  simp only [hsel, if_pos hok, hread]
  rfl

/-- A page goes into the first cluster as long as it holds nothing, else into a new one. -/
theorem Holds.writeContent (hv : Volume fs) (h : Holds fs d file cs stream need)
    (hneed : file.pos < need)
    (hb : ∀ a < fs.cluster_sz_in_bytes,
      buffer a = stream (file.pos * fs.cluster_sz_in_bytes + a)) :
    ∃ d' cluster cs', fatFileWriteContent fs d file buffer = (d', file.written fs cluster) ∧
      Holds fs d' (file.written fs cluster) cs' stream need ∧ Beside fs d cs d' cs' := by
  by_cases hpos : 0 < file.pos
  · have heof : file.eof = true := by rw [h.eof, decide_eq_true hpos]
    have hlen : cs.length = file.pos := by
      rw [h.length, Nat.max_eq_right hpos]
    have hfree : 0 < (free fs d).card := by
      have := h.room
      omega
    obtain ⟨hn, h0⟩ := fatFindFreeCluster_of_free hv hfree
    obtain ⟨hr, hbes⟩ := h.extend hv hpos hn h0 rfl
    have hmem := List.mem_of_getElem? hr.last
    have hclear := auVDiskWrite_only (d := fatAllocCluster fs (fatAllocCluster fs d file.current
      (fatFindFreeCluster fs d)) (fatFindFreeCluster fs d) FAT_EOC_MARK)
      (c := fatFindFreeCluster fs d) (le_refl fs.sectorPerCluster) fun _ => 0
    have hmark := hr.chain.mark _ (by rw [hr.length, Nat.add_sub_cancel]; exact hr.last)
    have heq := fatFileWriteContent_eq buffer d hv (if_pos heof) hn
    rw [AuVFSNode.wrote_of_mark (by
      rwa [fatReadFAT_eq, fatClearCluster, hclear.entry hv hn hn.2.2])] at heq
    refine ⟨_, _, cs ++ [fatFindFreeCluster fs d], heq, ?_, ?_⟩
    · exact hr.page buffer hv hb (hclear.trans (auVDiskWrite_only le_rfl buffer))
        (fun a ha => content_write hv buffer ha)
    · exact hbes.trans ((hclear.trans (auVDiskWrite_only le_rfl buffer)).beside hv hn hmem)
  · have heof : ¬ file.eof = true := by
      rw [h.eof, decide_eq_true_eq]
      exact hpos
    have hp0 : file.pos = 0 := by omega
    have hlen : cs.length = 1 := by
      rw [h.length, hp0]
      rfl
    have hlast := h.last
    have hmark := h.chain.mark _ hlast
    have hmem := List.mem_of_getElem? hlast
    have hc := h.chain.cluster _ hmem
    have hr : Ready fs d file cs stream need file.current := by
      refine ⟨h.chain, h.first, ?_, ?_, h.kept, h.fresh, h.room⟩
      · rw [hlen] at hlast
        rw [hp0]
        exact hlast
      · rw [hlen, hp0]
    have hw := auVDiskWrite_only (d := d) (c := file.current) (le_refl fs.sectorPerCluster) buffer
    have heq := fatFileWriteContent_eq buffer d hv (if_neg heof) hc
    rw [AuVFSNode.wrote_of_mark hmark] at heq
    refine ⟨_, _, cs, heq, ?_, hw.beside hv hc hmem⟩
    exact hr.page buffer hv hb hw fun a ha => content_write hv buffer ha

end

end Xeneva.Fat
