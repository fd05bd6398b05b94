import Xeneva.Fs.FatLocate

/-!
# Reading a directory

A directory is read entry by entry, an index in the caller's record telling how far it is. The
sectors are taken one after another from the directory's first cluster on, one more than the
cluster has, and the table is not looked at.
-/

namespace Xeneva.Fat

def FS_FLAG_DIRECTORY : ℕ := 2
def FS_FLAG_GENERAL : ℕ := 4

structure AuDirectoryEntry where
  filename : List UInt8 := []
  index : ℤ := 0
  size : ℤ := 0
  date : ℕ := 0
  time : ℕ := 0
  flags : ℕ := 0
  deriving DecidableEq

def toInt32 (v : ℕ) : ℤ := if v < 2 ^ 31 then v else v - 2 ^ 32

/-- The bytes of a name up to its terminator, from the name's eight and the extension's three. -/
def fatFromDosToFilename (s : Sector) (o : ℕ) : List UInt8 :=
  let name := ((List.range 8).map fun k => s (o + k)).filter fun b => b > 0x20
  let ext := ((List.range 3).map fun k => s (o + 8 + k)).filter fun b => b > 0x20
  if ext = [] then name else name ++ 0x2E :: ext

/-- Entries that are passed over: deleted ones, and hidden, system, volume and read-only ones, to
which the parts of long names belong. -/
def passedOver (s : Sector) (i : ℕ) : Bool :=
  s (32 * i) = 0xE5 ∨ s (32 * i) = 0x05 ∨ s (32 * i) = 0xFF ∨
    s (32 * i + 11) &&& 0x02 ≠ 0 ∨ s (32 * i + 11) &&& 0x04 ≠ 0 ∨
    s (32 * i + 11) &&& 0x08 ≠ 0 ∨ s (32 * i + 11) &&& 0x01 ≠ 0

def fillDirent (dirent : AuDirectoryEntry) (s : Sector) (i : ℕ) : AuDirectoryEntry :=
  { dirent with
    filename := fatFromDosToFilename s (32 * i)
    size := toInt32 (read32 s (32 * i + 28))
    time := read16 s (32 * i + 14)
    date := read16 s (32 * i + 16)
    flags := if s (32 * i + 11) &&& 0x10 ≠ 0 then FS_FLAG_DIRECTORY else FS_FLAG_GENERAL }

/-- The record and the result. No caller reads on behind the end, so the index is not negative. -/
def fatDirectoryRead (fs : FatFS) (d : Disk) (dir : AuVFSNode) (dirent : AuDirectoryEntry) :
    AuDirectoryEntry × ℤ :=
  let dirent := { dirent with filename := [] }
  let index := dirent.index.toNat
  if index / 16 > fs.sectorPerCluster then ({ dirent with index := -1 }, -1)
  else
    let lba := fatClusterToSector32 fs dir.first_block + index / 16
    let buf := auVDiskRead fs d lba 1 fun _ => 0
    if isEnd buf (index % 16) then ({ dirent with index := -1 }, -1)
    else if passedOver buf (index % 16) then ({ dirent with index := dirent.index + 1 }, -1)
    else
      let dirent := fillDirent dirent buf (index % 16)
      ({ dirent with index := dirent.index + 1 }, 0)

/-- What a read that succeeds tells of the entry. -/
def AuDirectoryEntry.told (dirent : AuDirectoryEntry) : AuDirectoryEntry :=
  { dirent with index := 0 }

/-- `n` reads at most, until one reports the end: what those that succeed tell. -/
def readDir (fs : FatFS) (d : Disk) (dir : AuVFSNode) :
    ℕ → AuDirectoryEntry → Option (List AuDirectoryEntry)
  | 0, _ => none
  | n + 1, dirent =>
    if dirent.index = -1 then some []
    else
      let (dirent, code) := fatDirectoryRead fs d dir dirent
      (readDir fs d dir n dirent).map fun rest =>
        if code = 0 then dirent.told :: rest else rest

/-- The entries in their order up to the end mark, without those passed over. -/
def listing (fs : FatFS) (d : Disk) (xs : List Slot) : List AuDirectoryEntry :=
  ((xs.takeWhile fun x => ! endAt fs d x).filter fun x => ! passedOver (sectorAt fs d x) x.2.2).map
    fun x => fillDirent {} (sectorAt fs d x) x.2.2

/-- A directory on a volume with sectors of 512 bytes. -/
structure Directory (fs : FatFS) (d : Disk) where
  bytes : fs.bytesPerSector = 512
  first : ℕ
  rest : List ℕ
  chain : Chain fs d (first :: rest)

variable {fs : FatFS} {d : Disk} {dir : AuVFSNode} {dirent : AuDirectoryEntry} {n : ℕ}

/-- Some number of reads comes to the end, and they tell of every entry once and in order. -/
def Directory.ReadsAll (g : Directory fs d) (dir : AuVFSNode) (dirent : AuDirectoryEntry) : Prop :=
  ∃ n, readDir fs d dir n dirent = some (listing fs d (slots fs (g.first :: g.rest)))

/-- The sector right behind the first cluster. -/
def behind (fs : FatFS) (c : ℕ) : List Slot :=
  (List.range 16).map fun i => (c, fs.sectorPerCluster, i)

theorem listing_cons (x : Slot) (xs : List Slot) : listing fs d (x :: xs) =
    if endAt fs d x then []
    else if passedOver (sectorAt fs d x) x.2.2 then listing fs d xs
    else fillDirent {} (sectorAt fs d x) x.2.2 :: listing fs d xs := by
  rw [listing, listing, List.takeWhile_cons]
  cases endAt fs d x with
  | true => rfl
  | false =>
    simp only [Bool.not_false, if_true, List.filter_cons]
    cases passedOver (sectorAt fs d x) x.2.2 <;> rfl

theorem listing_append_of_end {xs ys : List Slot} (h : ∃ x ∈ xs, endAt fs d x = true) :
    listing fs d (xs ++ ys) = listing fs d xs := by
  induction xs with
  | nil => simp at h
  | cons x xs ih =>
    rw [List.cons_append, listing_cons, listing_cons]
    cases he : endAt fs d x with
    | true => rfl
    | false =>
      rw [ih]
      obtain ⟨y, hy, hye⟩ := h
      rcases List.mem_cons.mp hy with rfl | hy
      · rw [he] at hye
        cases hye
      · exact ⟨y, hy, hye⟩

theorem listing_append {xs ys : List Slot} (h : ∀ x ∈ xs, endAt fs d x = false) :
    listing fs d (xs ++ ys) = listing fs d xs ++ listing fs d ys := by
  induction xs with
  | nil => rfl
  | cons x xs ih =>
    rw [List.forall_mem_cons] at h
    rw [List.cons_append, listing_cons, listing_cons, ih h.2, h.1]
    cases passedOver (sectorAt fs d x) x.2.2 <;> rfl

/-- The place an index stands for. -/
def slotOf (c k : ℕ) : Slot := (c, k / 16, k % 16)

theorem slotOf_range (c m : ℕ) : (List.range (16 * m)).map (slotOf c) =
    (List.range m).flatMap fun j => (List.range 16).map fun i => (c, j, i) := by
  induction m with
  | zero => rfl
  | succ m ih =>
    have hr : List.range (m + 1) = List.range m ++ [m] := List.range_succ
    rw [Nat.mul_succ, List.range_add, List.map_append, ih, hr, List.flatMap_append,
      List.flatMap_singleton, List.map_map]
    congr 1
    apply List.map_congr_left
    intro i hi
    rw [List.mem_range] at hi
    simp only [Function.comp_apply, slotOf, Prod.mk.injEq, true_and]
    omega

/-- The indices up to the first that is refused. -/
theorem slotOf_range_succ (c : ℕ) :
    (List.range (16 * (fs.sectorPerCluster + 1))).map (slotOf c) = slots fs [c] ++ behind fs c := by
  have hr : List.range (fs.sectorPerCluster + 1) = List.range fs.sectorPerCluster ++
      [fs.sectorPerCluster] := List.range_succ
  rw [slotOf_range, hr, List.flatMap_append, List.flatMap_singleton, slots_cons, slots,
    List.flatMap_nil, List.append_nil, places, List.map_flatMap, behind]
  congr 2

/-! ## The reads -/

/-- Two buffers with the same entry at a place. -/
def SameBytes (s t : Sector) (i : ℕ) : Prop := ∀ k < 32, s (32 * i + k) = t (32 * i + k)

section
variable {s t : Sector} {i : ℕ}

theorem SameBytes.isEnd (h : SameBytes s t i) : isEnd s i = isEnd t i := by
  have h0 : s (32 * i) = t (32 * i) := h 0 (by decide)
  rw [Fat.isEnd, Fat.isEnd, h0]

theorem SameBytes.passedOver (h : SameBytes s t i) : passedOver s i = passedOver t i := by
  have h0 : s (32 * i) = t (32 * i) := h 0 (by decide)
  rw [Fat.passedOver, Fat.passedOver, h0, h 11 (by decide)]

theorem SameBytes.filename (h : SameBytes s t i) :
    fatFromDosToFilename s (32 * i) = fatFromDosToFilename t (32 * i) := by
  have hname : (List.range 8).map (fun k => s (32 * i + k)) =
      (List.range 8).map fun k => t (32 * i + k) := by
    apply List.map_congr_left
    intro k hk
    rw [List.mem_range] at hk
    exact h k (by omega)
  have hext : (List.range 3).map (fun k => s (32 * i + 8 + k)) =
      (List.range 3).map fun k => t (32 * i + 8 + k) := by
    apply List.map_congr_left
    intro k hk
    rw [List.mem_range] at hk
    rw [Nat.add_assoc]
    exact h (8 + k) (by omega)
  rw [fatFromDosToFilename, hname, hext, fatFromDosToFilename]

theorem SameBytes.fillDirent (h : SameBytes s t i) (e : AuDirectoryEntry) :
    fillDirent e s i = fillDirent e t i := by
  have hsize : read32 s (32 * i + 28) = read32 t (32 * i + 28) := by
    apply read32_congr
    intro p hp hp'
    obtain ⟨k, rfl⟩ := Nat.exists_eq_add_of_le hp
    rw [Nat.add_assoc]
    exact h (28 + k) (by omega)
  have h16 (k : ℕ) (hk : k < 31) : read16 s (32 * i + k) = read16 t (32 * i + k) := by
    rw [read16, read16, h k (by omega), Nat.add_assoc, h (k + 1) (by omega)]
  rw [Fat.fillDirent, Fat.fillDirent, h.filename, hsize, h16 14 (by decide), h16 16 (by decide),
    h 11 (by decide)]

end

theorem auVDiskRead_sameBytes (hb : fs.bytesPerSector = 512) (lba : ℕ) {i : ℕ} (hi : i < 16) :
    SameBytes (auVDiskRead fs d lba 1 fun _ => 0) (d lba) i := by
  intro k hk
  rw [auVDiskRead, hb, if_pos (by omega), Nat.div_eq_of_lt (by omega),
    Nat.mod_eq_of_lt (by omega), Nat.add_zero]

/-- A read at an index that is not refused. -/
theorem fatDirectoryRead_of_lt (d : Disk) (dir : AuVFSNode) (hb : fs.bytesPerSector = 512) {k : ℕ}
    (hi : dirent.index = k) (hk : k < 16 * (fs.sectorPerCluster + 1)) :
    fatDirectoryRead fs d dir dirent =
      let s := sectorAt fs d (slotOf dir.first_block k)
      if isEnd s (k % 16) then ({ dirent with filename := [], index := -1 }, -1)
      else if passedOver s (k % 16) then ({ dirent with filename := [], index := ↑(k + 1) }, -1)
      else ({ fillDirent dirent s (k % 16) with index := ↑(k + 1) }, 0) := by
  have hs := auVDiskRead_sameBytes (d := d) hb
    (fatClusterToSector32 fs dir.first_block + k / 16) (Nat.mod_lt k (show 0 < 16 by decide))
  have hn : ¬ k / 16 > fs.sectorPerCluster := by omega
  simp only [fatDirectoryRead, hi, Int.toNat_natCast, if_neg hn, hs.isEnd, hs.passedOver,
    hs.fillDirent, sectorAt, slotOf, Int.natCast_add, Int.cast_ofNat_Int]
  rfl

theorem listing_slotOf_cons (c k : ℕ) (xs : List Slot) : listing fs d (slotOf c k :: xs) =
    let s := sectorAt fs d (slotOf c k)
    if isEnd s (k % 16) then []
    else if passedOver s (k % 16) then listing fs d xs
    else fillDirent {} s (k % 16) :: listing fs d xs :=
  listing_cons _ _

/-- From an index on, the reads tell of what is left of the sectors read. -/
theorem readDir_from (hb : fs.bytesPerSector = 512) (m : ℕ) {k : ℕ} (hi : dirent.index = k)
    (hk : k + m = 16 * (fs.sectorPerCluster + 1)) (hn : m + 2 ≤ n) :
    readDir fs d dir n dirent =
      some (listing fs d ((List.range' k m).map (slotOf dir.first_block))) := by
  induction m generalizing k n dirent with
  | zero =>
    obtain ⟨n, rfl⟩ := Nat.exists_eq_add_of_le' hn
    have hbig : k / 16 > fs.sectorPerCluster := by omega
    have hne : ¬ dirent.index = -1 := by omega
    have hread : fatDirectoryRead fs d dir dirent =
        ({ dirent with filename := [], index := -1 }, -1) := by
      simp only [fatDirectoryRead, hi, Int.toNat_natCast, if_pos hbig]
    rw [readDir, if_neg hne, hread]
    rfl
  | succ m ih =>
    obtain ⟨n, rfl⟩ := Nat.exists_eq_add_of_le' (show 1 ≤ n by omega)
    have hne : ¬ dirent.index = -1 := by omega
    have hread := fatDirectoryRead_of_lt d dir hb hi (by omega)
    rw [readDir, if_neg hne, List.range'_succ, List.map_cons, listing_slotOf_cons]
    set s := sectorAt fs d (slotOf dir.first_block k)
    by_cases he : isEnd s (k % 16) = true
    · obtain ⟨n, rfl⟩ := Nat.exists_eq_add_of_le' (show 1 ≤ n by omega)
      simp only [if_pos he] at hread ⊢
      rw [hread]
      rfl
    · simp only [if_neg he] at hread ⊢
      by_cases hp : Fat.passedOver s (k % 16) = true
      · simp only [if_pos hp] at hread ⊢
        rw [hread]
        change (readDir fs d dir n _).map _ = _
        rw [ih rfl (by omega) (by omega)]
        rfl
      · simp only [if_neg hp] at hread ⊢
        rw [hread]
        change (readDir fs d dir n _).map _ = _
        rw [ih rfl (by omega) (by omega)]
        rfl

/-- The reads of a whole directory come to an end. -/
theorem readDir_eq (d : Disk) (dir : AuVFSNode) (hb : fs.bytesPerSector = 512)
    (hi : dirent.index = 0) (hn : 16 * (fs.sectorPerCluster + 1) + 2 ≤ n) :
    readDir fs d dir n dirent =
      some (listing fs d (slots fs [dir.first_block] ++ behind fs dir.first_block)) := by
  rw [readDir_from hb (16 * (fs.sectorPerCluster + 1)) hi (Nat.zero_add _) hn,
    ← slotOf_range_succ, List.range_eq_range']

/-- More reads do not change what is told. -/
theorem readDir_mono {xs : List AuDirectoryEntry} {m : ℕ}
    (h : readDir fs d dir n dirent = some xs) (hm : n ≤ m) :
    readDir fs d dir m dirent = some xs := by
  induction n generalizing m dirent xs with
  | zero => cases h
  | succ n ih =>
    obtain ⟨m, rfl⟩ := Nat.exists_eq_add_of_le' (show 1 ≤ m by omega)
    cases hread : fatDirectoryRead fs d dir dirent with
    | mk e code =>
    rw [readDir, hread] at h ⊢
    by_cases he : dirent.index = -1
    · rwa [if_pos he] at h ⊢
    · rw [if_neg he] at h ⊢
      obtain ⟨rest, hrest, hxs⟩ := Option.map_eq_some_iff.mp h
      change (readDir fs d dir m e).map _ = _
      rw [ih hrest (Nat.le_of_succ_le_succ hm)]
      exact congrArg some hxs

/-- Whatever the number of reads, they tell of the first cluster and the sector behind it. -/
theorem readDir_eq_some_iff (hb : fs.bytesPerSector = 512) (hi : dirent.index = 0)
    (xs : List AuDirectoryEntry) : (∃ n, readDir fs d dir n dirent = some xs) ↔
      listing fs d (slots fs [dir.first_block] ++ behind fs dir.first_block) = xs := by
  have hall := readDir_eq d dir hb hi (le_refl _)
  constructor
  · rintro ⟨n, hn⟩
    have h1 := readDir_mono hn (Nat.le_max_left n (16 * (fs.sectorPerCluster + 1) + 2))
    have h2 := readDir_mono hall (Nat.le_max_right n (16 * (fs.sectorPerCluster + 1) + 2))
    rw [h1] at h2
    exact (Option.some.inj h2).symm
  · rintro rfl
    exact ⟨_, hall⟩

/-- All of a directory is read where its end mark is in the first cluster, and where the sector
behind that cluster happens to list what the rest of the chain does. -/
theorem Directory.readsAll_iff (g : Directory fs d) (hdir : dir.first_block = g.first)
    (hi : dirent.index = 0) : g.ReadsAll dir dirent ↔
      (∃ x ∈ slots fs [g.first], endAt fs d x = true) ∨
        listing fs d (behind fs g.first) = listing fs d (slots fs g.rest) := by
  have hs : slots fs (g.first :: g.rest) = slots fs [g.first] ++ slots fs g.rest := by
    simp only [slots, List.flatMap_cons, List.flatMap_nil, List.append_nil]
  rw [ReadsAll, readDir_eq_some_iff g.bytes hi, hdir, hs]
  by_cases he : ∃ x ∈ slots fs [g.first], endAt fs d x = true
  · rw [listing_append_of_end he, listing_append_of_end he]
    exact ⟨fun _ => .inl he, fun _ => rfl⟩
  · have hno : ∀ x ∈ slots fs [g.first], endAt fs d x = false := by
      intro x hx
      exact Bool.eq_false_iff.mpr fun h => he ⟨x, hx, h⟩
    rw [listing_append hno, listing_append hno, List.append_cancel_left_eq]
    exact ⟨.inr, fun h => h.resolve_left he⟩

/-- Cluster 2 is full of entries and links to 4, where there is one more. -/
def twoClusterDisk : Disk := fun q o =>
  if q = 32 then
    if o = 8 then 4 else if o = 16 then 0xF8 else if o = 17 ∨ o = 18 then 0xFF
    else if o = 19 then 0x0F else 0
  else if q = 64 ∨ q = 66 ∧ o < 32 then 0x60
  else 0

theorem twoCluster_chain : Chain oneSectorFs twoClusterDisk [2, 4] where
  cluster := by
    unfold FatFS.Cluster
    decide
  nodup := by decide
  link i a b ha hb := by
    cases i with
    | zero =>
      cases ha
      cases hb
      decide
    | succ i => cases hb
  mark a ha := by
    cases ha
    decide

def twoCluster : Directory oneSectorFs twoClusterDisk where
  bytes := rfl
  first := 2
  rest := [4]
  chain := twoCluster_chain

def twoClusterDir : AuVFSNode where
  name _ := 0
  current := 2
  first_block := 2
  parent_block := 2

/-- The entry in the second cluster is never told of. -/
theorem twoCluster_not_all : ¬ twoCluster.ReadsAll twoClusterDir {} := by
  rw [Directory.ReadsAll, readDir_eq_some_iff twoCluster.bytes rfl]
  intro h
  have hlen := congrArg List.length h
  revert hlen
  decide

theorem twoCluster_readsAll_iff : twoCluster.ReadsAll twoClusterDir {} ↔
    (∃ x ∈ slots oneSectorFs [2], endAt oneSectorFs twoClusterDisk x = true) ∨
      listing oneSectorFs twoClusterDisk (behind oneSectorFs 2) =
        listing oneSectorFs twoClusterDisk (slots oneSectorFs [4]) :=
  twoCluster.readsAll_iff rfl rfl

end Xeneva.Fat
