import Xeneva.Fs.FatCalls

/-!
# A new file comes back as it was written

Every call writes whole clusters, so the next one goes on at a cluster's beginning. The stream
of the file's clusters is what was written as long as only the last call ends inside one.
-/

namespace Xeneva.Fat

variable {fs : FatFS} {d : Disk} {cs : List ℕ} {file : AuVFSNode} {stream : ℕ → UInt8}

/-! ## Reading along the chain -/

theorem fatRead_spec (hv : Volume fs) (hc : fs.Cluster file.current) (page : ℕ → UInt8) :
    ∃ buf, fatRead fs d file page = (buf, { file with
        eof := (fatReadFAT fs d file.current ≥ FAT_EOC_MARK % 2 ^ 28 ∨
          fatReadFAT fs d file.current ≥ FAT_BAD_CLUSTER % 2 ^ 28) ∨ file.eof = true
        current := fatReadFAT fs d file.current }) ∧
      ∀ a < fs.cluster_sz_in_bytes, buf a = content fs d file.current a := by
  have heoc : ¬ isEoc file.current = true := by
    rw [hc.not_isEoc hv]
    exact Bool.false_ne_true
  refine ⟨_, if_neg heoc, ?_⟩
  intro a ha
  have hlba : fatClusterToSector32 fs file.current < 2 ^ 32 := by
    have h1 := hv.sector_end hc
    have h2 := hv.some
    omega
  have ha' : a < fs.sectorPerCluster * fs.bytesPerSector := ha
  rw [auVDiskRead, if_pos ha', Nat.mod_eq_of_lt hlba, hv.bytes, content]

theorem readLoop_eof (h : file.eof = true) (n skip : ℕ) (page : ℕ → UInt8) (length : ℕ) :
    (readLoop fs d n skip page file length).1 = [] := by
  cases n with
  | zero => rfl
  | succ n => rw [readLoop, if_pos h]

/-- From byte `skip` of the `k`th cluster on, the read returns the stream up to the chain's
end. -/
theorem readLoop_spec (stream : ℕ → UInt8) (hv : Volume fs) (hch : Chain fs d cs)
    (hkept : ∀ i c, cs[i]? = some c → ∀ a < fs.cluster_sz_in_bytes,
      content fs d c a = stream (i * fs.cluster_sz_in_bytes + a))
    (n k skip : ℕ) (page : ℕ → UInt8) (length : ℕ) (heof : file.eof = false)
    (hcur : cs[k]? = some file.current) (hskip : skip < fs.cluster_sz_in_bytes)
    (hn : length + skip ≤ n * fs.cluster_sz_in_bytes) :
    (readLoop fs d n skip page file length).1 =
      (List.range (min length (cs.length * fs.cluster_sz_in_bytes -
        (k * fs.cluster_sz_in_bytes + skip)))).map fun a =>
          stream (k * fs.cluster_sz_in_bytes + skip + a) := by
  induction n generalizing k skip page length file with
  | zero =>
    have h0 : length = 0 := by
      rw [Nat.zero_mul] at hn
      omega
    rw [h0, Nat.zero_min]
    rfl
  | succ n ih =>
    have hc := hch.cluster _ (List.mem_of_getElem? hcur)
    have hk : k < cs.length := (List.getElem?_eq_some_iff.mp hcur).1
    obtain ⟨buf, hr, hbuf⟩ := fatRead_spec (d := d) hv hc page
    have hne : ¬ file.eof = true := by
      rw [heof]
      exact Bool.false_ne_true
    rw [readLoop, if_neg hne]
    simp only [hr]
    -- this cluster's part of the stream
    have hcopy : ∀ m ≤ fs.cluster_sz_in_bytes - skip,
        (List.range m).map (fun a => buf (skip + a)) =
          (List.range m).map fun a => stream (k * fs.cluster_sz_in_bytes + skip + a) := by
      intro m hm
      apply List.map_congr_left
      intro a ha
      have ha := List.mem_range.mp ha
      rw [hbuf _ (by omega), hkept k _ hcur _ (by omega), Nat.add_assoc]
    rw [hcopy _ (Nat.min_le_right _ _)]
    have hle := Nat.mul_le_mul_right fs.cluster_sz_in_bytes (show k + 1 ≤ cs.length from hk)
    rw [Nat.add_mul, Nat.one_mul] at hle hn
    by_cases hlast : k + 1 = cs.length
    · -- the last cluster: the entry is an end mark
      have hk' : k = cs.length - 1 := by omega
      have hmark := hch.mark _ (hk' ▸ hcur)
      rw [readLoop_eof, List.append_nil]
      · have hlen : cs.length * fs.cluster_sz_in_bytes =
            k * fs.cluster_sz_in_bytes + fs.cluster_sz_in_bytes := by
          rw [← hlast, Nat.add_mul, Nat.one_mul]
        congr 2
        omega
      · rw [isEoc, decide_eq_true_eq, fatReadFAT, Nat.mod_mod] at hmark
        exact decide_eq_true (.inl (.inl hmark))
    · have hk1 : k + 1 < cs.length := by omega
      have hnext := List.getElem?_eq_getElem hk1
      have hlink := hch.link k _ _ hcur hnext
      have hlt : cs[k + 1] < FAT_BAD_CLUSTER % 2 ^ 28 :=
        lt_of_lt_of_le (hch.cluster _ (List.getElem_mem hk1)).2.1 hv.count
      have hle2 := Nat.mul_le_mul_right fs.cluster_sz_in_bytes (show k + 2 ≤ cs.length from hk1)
      rw [Nat.add_mul] at hle2
      rw [ih (k + 1) 0 _ _ _ (by rw [hlink]; exact hnext) hv.size_pos (by omega)]
      · rw [Nat.add_mul, Nat.one_mul]
        by_cases hshort : length ≤ fs.cluster_sz_in_bytes - skip
        · have h1 : length - min length (fs.cluster_sz_in_bytes - skip) = 0 := by omega
          rw [h1, Nat.zero_min, List.range_zero, List.map_nil, List.append_nil]
          congr 2
          omega
        · have h1 : min length (fs.cluster_sz_in_bytes - skip) = fs.cluster_sz_in_bytes - skip := by
            omega
          have h2 : min length (cs.length * fs.cluster_sz_in_bytes -
              (k * fs.cluster_sz_in_bytes + skip)) = (fs.cluster_sz_in_bytes - skip) +
              min (length - (fs.cluster_sz_in_bytes - skip)) (cs.length * fs.cluster_sz_in_bytes -
                (k * fs.cluster_sz_in_bytes + fs.cluster_sz_in_bytes + 0)) := by
            omega
          rw [h2, h1, List.range_add, List.map_append, List.map_map]
          congr 1
          apply List.map_congr_left
          intro a _
          change stream _ = stream (_ + (fs.cluster_sz_in_bytes - skip + a))
          apply congrArg stream
          omega
      · rw [FAT_BAD_CLUSTER] at hlt
        rw [hlink, heof, FAT_EOC_MARK, FAT_BAD_CLUSTER]
        apply decide_eq_false
        simp only [Bool.false_eq_true, or_false]
        omega

/-- A seek inside the chain. -/
theorem fileSetOffset_inside {i : ℕ} {need : ℕ} (hv : Volume fs)
    (h : Holds fs d file cs stream need) {offset : ℕ} (ho : offset < 2 ^ 32)
    (hc : cs[offset / fs.cluster_sz_in_bytes]? = some i) :
    (fileSetOffset fs d file offset).eof = false ∧
      (fileSetOffset fs d file offset).current = i ∧
      (fileSetOffset fs d file offset).pos = offset := by
  have hw := h.chain.walk h.first _ hc
  have hi := (h.chain.cluster i (List.mem_of_getElem? hc)).not_isEoc hv
  have hfresh : ¬ (file.last_resolved_cluster ≠ 0 ∧
      file.last_resolved_index ≤ offset / fs.cluster_sz_in_bytes) := fun hn => hn.1 h.fresh
  simp only [fileSetOffset, fatGetClusterFor, if_neg hfresh, Nat.sub_zero, hw, hi,
    Nat.mod_eq_of_lt ho]
  cases file.eof <;> simp

/-- A seek to the end of the chain leaves a written file at its end. -/
theorem fileSetOffset_end {need : ℕ} (h : Holds fs d file cs stream need) {offset : ℕ}
    (hc : offset / fs.cluster_sz_in_bytes = cs.length) (hpos : 0 < file.pos) :
    (fileSetOffset fs d file offset).eof = true := by
  have hlen : 0 < cs.length := by
    rw [h.length]
    omega
  have hw : isEoc (walk fs d cs.length file.first_block) = true := by
    have hs : walk fs d (cs.length - 1 + 1) file.first_block = _ := walk_succ _ _
    rw [Nat.sub_add_cancel hlen] at hs
    rw [hs, h.chain.walk h.first _ h.last]
    exact h.chain.mark _ h.last
  have hfresh : ¬ (file.last_resolved_cluster ≠ 0 ∧ file.last_resolved_index ≤ cs.length) :=
    fun hn => hn.1 h.fresh
  have heof : file.eof = true := by rw [h.eof, decide_eq_true hpos]
  simp only [fileSetOffset, fatGetClusterFor, hc, if_neg hfresh, Nat.sub_zero, hw, heof]
  simp

/-! ## The session -/

/-- A sound volume with room for the file, in whose directory the name is new; only the last
call that writes something ends inside a cluster, and the read stays in the file or the file
ends with a cluster. -/
structure Session.Whole (s : Session) : Prop where
  volume : Volume s.fs
  slot : ∃ p j i, findSlot s.fs s.disk s.n s.parent_cluster = some (some (p, j, i)) ∧
    s.fs.Cluster p ∧ entry s.fs s.disk p ≠ 0 ∧ entryIn s.fs s.disk s.fname p = none
  room : max 1 (numCluster s.fs s.contents.length) ≤ (free s.fs s.disk).card
  size : s.contents.length < 2 ^ 32
  whole : wholeClusters s.fs 0 s.writes = true
  offset : s.offset ≤ s.contents.length
  range : s.offset + s.length ≤ s.contents.length ∨
    (0 < s.contents.length ∧ s.fs.cluster_sz_in_bytes ∣ s.contents.length)

theorem slice_map_range {α : Type*} (f : ℕ → α) (total offset length : ℕ) :
    (((List.range total).map f).drop offset).take length =
      (List.range (min length (total - offset))).map fun a => f (offset + a) := by
  apply List.ext_getElem
  · simp
  · intro a h1 h2
    simp

theorem le_blocks {sz : ℕ} (h : 0 < sz) (length : ℕ) : length ≤ (length + sz - 1) / sz * sz := by
  have hdm := Nat.div_add_mod' (length + sz - 1) sz
  have hlt := Nat.mod_lt (length + sz - 1) h
  omega

/-- A read of a written file returns what was written, from the offset on. -/
theorem Written.read {need j i total offset length : ℕ} (hv : Volume fs)
    (h : Written fs d file cs stream need j i total) (ht : total < 2 ^ 32) (ho : offset ≤ total)
    (hr : offset + length ≤ total ∨ (0 < total ∧ fs.cluster_sz_in_bytes ∣ total))
    (page : ℕ → UInt8) :
    (fatReadFile fs d (fileSetOffset fs d file offset) length page).1 =
      (((List.range total).map stream).drop offset).take length := by
  have hpos := hv.size_pos
  have hle := (numCluster_le_iff hv total file.pos).mp h.pos.ge
  rw [slice_map_range]
  rcases Nat.eq_zero_or_pos total with rfl | htot
  · -- nothing was written, nothing can be asked for
    have ho0 : offset = 0 := by omega
    have hl0 : length = 0 := by omega
    rw [ho0, hl0]
    have hfirst := (List.getElem?_eq_getElem (show 0 < cs.length by
      rw [h.holds.length]
      exact Nat.le_max_left _ _))
    obtain ⟨-, -, hp⟩ := fileSetOffset_inside hv h.holds (Nat.two_pow_pos 32)
      (by rwa [Nat.zero_div])
    simp only [fatReadFile, hp, Nat.zero_mod, Nat.zero_add]
    rw [Nat.div_eq_of_lt (by omega)]
    rfl
  · have hfp : 0 < file.pos := by
      by_contra h0
      rw [show file.pos = 0 by omega, Nat.zero_mul] at hle
      omega
    have hlen : cs.length = file.pos := by
      rw [h.holds.length, Nat.max_eq_right hfp]
    -- what the read may return beyond the file is excluded
    have hmin : min length (cs.length * fs.cluster_sz_in_bytes - offset) =
        min length (total - offset) := by
      rw [hlen]
      rcases hr with hr | ⟨-, q, hq⟩
      · omega
      · have hfq : file.pos ≤ q := by
          rw [h.pos, numCluster_le_iff hv, hq, Nat.mul_comm]
        have := Nat.mul_le_mul_right fs.cluster_sz_in_bytes hfq
        rw [Nat.mul_comm] at hq
        omega
    have hdm := Nat.div_add_mod' offset fs.cluster_sz_in_bytes
    by_cases hin : offset / fs.cluster_sz_in_bytes < cs.length
    · obtain ⟨heof, hcur, hp⟩ := fileSetOffset_inside hv h.holds (by omega)
        (List.getElem?_eq_getElem hin)
      have hloop := readLoop_spec stream hv h.holds.chain
        (fun k c hc => h.holds.kept k c hc (by
          have := (List.getElem?_eq_some_iff.mp hc).1
          omega))
        _ _ _ page length heof (by rw [hcur]; exact List.getElem?_eq_getElem hin)
        (Nat.mod_lt offset hpos) (le_blocks hpos _)
      simp only [fatReadFile, hp, hloop, hdm, hmin]
    · -- the file ends with a cluster, and the read begins there
      have hend : offset / fs.cluster_sz_in_bytes = cs.length := by
        have hmul := Nat.mul_le_mul_right fs.cluster_sz_in_bytes (Nat.not_lt.mp hin)
        rw [hlen] at hin hmul ⊢
        rw [show offset = file.pos * fs.cluster_sz_in_bytes by omega, Nat.mul_div_cancel _ hpos]
      have h0 : total - offset = 0 := by
        have hmul := Nat.mul_le_mul_right fs.cluster_sz_in_bytes hend.ge
        rw [hlen] at hmul
        omega
      rw [h0, Nat.min_zero]
      simp only [fatReadFile]
      rw [readLoop_eof (fileSetOffset_end h.holds hend hfp)]
      rfl

/-- A session whose calls all begin at the end of a cluster returns what it wrote. -/
theorem exec_roundTrip (s : Session) (h : s.Whole) : s.RoundTrip := by
  obtain ⟨p, j, i, hs, hp, hu, hnone⟩ := h.slot
  obtain ⟨d₁, c, he₁, hhold, hout, hent⟩ := fatCreateFile_spec h.volume hs hp hu hnone h.room
    (Nat.lt_of_lt_of_le Nat.one_pos (Nat.le_max_left _ _)) (fun _ => 0)
  have hz : numCluster s.fs 0 = 0 := by
    rw [← Nat.le_zero, numCluster_le_iff h.volume, Nat.zero_mul]
  have hw₁ : Written s.fs d₁ (newNode s.fname c p) [c] (fun _ => 0)
      (max 1 (numCluster s.fs s.contents.length)) j i 0 :=
    ⟨hhold, hz.symm, hent, hout⟩
  have hsize := h.size
  rw [← Nat.zero_add s.contents.length] at hsize
  obtain ⟨d₂, file, cs, stream, he₂, hw₂, hbytes⟩ := hw₁.fatWrites h.volume (findSlot_some hs).1
    s.writes h.whole hsize
    (by
      rw [Nat.zero_add]
      exact Nat.le_max_right _ _)
  rw [Nat.zero_add] at hw₂ hbytes
  have hread := hw₂.read h.volume h.size h.offset h.range s.page
  have hrec : recordedSize s.fs d₂ (fileSetOffset s.fs d₂ file s.offset) =
      some s.contents.length := hw₂.entry.recordedSize_eq
  rw [Session.RoundTrip]
  simp only [Session.run, he₁, Option.bind_some, he₂, Option.map_some, hread, hrec]
  rw [hbytes]
  rfl

/-- A volume of one table sector whose root directory is cluster 2, empty. -/
def smallVolume : FatFS where
  fatBeginLBA := 1
  clusterBeginLBA := 2
  sectorPerCluster := 1
  rootDirFirstCluster := 2
  sectorPerFAT32 := 1
  totalClusters := 8
  bytesPerSector := 512
  behind _ := 0

def emptyRoot : Disk := fun q o => if q = 1 ∧ o / 4 = 2 then byte FAT_EOC_MARK (o % 4) else 0

/-- A file `AAAAAAAAAAA` in the root directory. -/
def onSmallVolume (writes : List Call) (offset length : ℕ) : Session where
  fs := smallVolume
  disk := emptyRoot
  n := 1
  parent_cluster := 2
  fname _ := 0x41
  writes
  offset
  length
  page _ := 0

theorem smallVolume_sound : Volume smallVolume where
  bytes := rfl
  some := by decide
  page := by decide
  order := by decide
  count := by decide
  span := by decide

instance (s : Session) : Decidable s.RoundTrip := inferInstanceAs (Decidable (_ = _))

/-- A whole cluster, then a part of one; the read crosses from one to the other. -/
def wholeThenPart : Session :=
  onSmallVolume [⟨fun a => UInt8.ofNat a, 512⟩, ⟨fun _ => 7, 3⟩] 511 3

theorem exec_roundTrip_wholeThenPart : wholeThenPart.RoundTrip :=
  exec_roundTrip wholeThenPart
    { volume := smallVolume_sound
      slot := ⟨2, 0, 0, by decide +kernel, by unfold FatFS.Cluster; decide, by decide +kernel,
        by decide +kernel⟩
      room := by decide +kernel
      size := by decide +kernel
      whole := by decide +kernel
      offset := by decide +kernel
      range := by decide +kernel }

/-- Two bytes in two calls. -/
def byteByByte : Session := onSmallVolume [⟨fun _ => 1, 1⟩, ⟨fun _ => 2, 1⟩] 0 2

/-- The second byte is in the next cluster: the read returns what lay behind the first one. -/
theorem not_exec_roundTrip : Volume byteByByte.fs ∧
    max 1 (numCluster byteByByte.fs byteByByte.contents.length) ≤
      (free byteByByte.fs byteByByte.disk).card ∧
    byteByByte.offset + byteByByte.length ≤ byteByByte.contents.length ∧
    ¬ byteByByte.RoundTrip :=
  ⟨smallVolume_sound, by decide +kernel, by decide +kernel, by decide +kernel⟩

end Xeneva.Fat
