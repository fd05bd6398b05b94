import Mathlib

/-!
# The FAT32 driver

A disk is a map from block addresses to sectors. The driver keeps nothing but the layout of
the volume: every table entry and directory entry is read from and written to the disk.
-/

namespace Xeneva.Fat

abbrev Sector := ℕ → UInt8
abbrev Disk := ℕ → Sector

def PAGE_SIZE : ℕ := 4096
def FAT_EOC_MARK : ℕ := 0xFFFFFFF8
def FAT_BAD_CLUSTER : ℕ := 0xFFFFFFF7
def FAT_ATTRIBUTE_DIRECTORY : UInt8 := 0x10
def FAT_ATTRIBUTE_ARCHIVE : UInt8 := 0x20
def FAT_ATTRIBUTE_LONG_NAME : UInt8 := 0x0F

/-- The mounted volume. A transfer of more than a page goes on into what lies behind the
page buffer, which `behind` holds. -/
structure FatFS where
  fatBeginLBA : ℕ
  clusterBeginLBA : ℕ
  sectorPerCluster : ℕ
  rootDirFirstCluster : ℕ
  sectorPerFAT32 : ℕ
  totalClusters : ℕ
  bytesPerSector : ℕ
  behind : ℕ → UInt8

def FatFS.cluster_sz_in_bytes (fs : FatFS) : ℕ := fs.sectorPerCluster * fs.bytesPerSector

/-- A file node; `name` is the DOS form of its filename. -/
structure AuVFSNode where
  name : ℕ → UInt8
  size : ℕ := 0
  eof : Bool := false
  pos : ℕ := 0
  current : ℕ
  first_block : ℕ
  parent_block : ℕ
  last_resolved_cluster : ℕ := 0
  last_resolved_index : ℕ := 0

def isEoc (clust : ℕ) : Bool := clust % 2 ^ 28 ≥ FAT_EOC_MARK % 2 ^ 28

/-- In 64-bit arithmetic, so that clusters 0 and 1 lie before the data area. -/
def fatClusterToSector32 (fs : FatFS) (cluster : ℕ) : ℕ :=
  (fs.clusterBeginLBA + (cluster + 2 ^ 64 - 2) % 2 ^ 64 * fs.sectorPerCluster) % 2 ^ 64

def read32 (s : Sector) (o : ℕ) : ℕ :=
  (s o).toNat + (s (o + 1)).toNat * 2 ^ 8 + (s (o + 2)).toNat * 2 ^ 16 +
    (s (o + 3)).toNat * 2 ^ 24

def byte (v k : ℕ) : UInt8 := UInt8.ofNat (v / 2 ^ (8 * k) % 2 ^ 8)

def write32 (s : Sector) (o v : ℕ) : Sector := fun p =>
  if o ≤ p ∧ p < o + 4 then byte v (p - o) else s p

/-- `count` sectors of a page buffer. -/
def auVDiskWrite (fs : FatFS) (d : Disk) (lba count : ℕ) (buffer : ℕ → UInt8) : Disk := fun q =>
  if lba ≤ q ∧ q < lba + count then
    fun o =>
      let a := (q - lba) * fs.bytesPerSector + o
      if a < PAGE_SIZE then buffer a else fs.behind a
  else d q

def writeSector (d : Disk) (lba : ℕ) (s : Sector) : Disk := Function.update d lba s

def fatSector (fs : FatFS) (cluster : ℕ) : ℕ := fs.fatBeginLBA + cluster * 4 / fs.bytesPerSector

def fatReadFAT (fs : FatFS) (d : Disk) (cluster : ℕ) : ℕ :=
  read32 (d (fatSector fs cluster)) (cluster * 4 % fs.bytesPerSector) % 2 ^ 28

/-- The first free entry of a sector; the entries 0 and 1 of the table are passed over. -/
def freeEntry (fs : FatFS) (s : Sector) (last_cluster_value : ℕ) : Option ℕ :=
  (List.range (fs.bytesPerSector / 4)).find? fun clust_i =>
    read32 s (clust_i * 4) = 0 ∧ ¬ (last_cluster_value = 0 ∧ clust_i ≤ 1)

/-- `n` sectors of the table are left, from the `i`th on. -/
def findFreeLoop (fs : FatFS) (d : Disk) : ℕ → ℕ → ℕ → ℕ
  | 0, _, _ => 0
  | n + 1, i, last =>
    match freeEntry fs (d (fs.fatBeginLBA + i)) last with
    | some clust_i => (i * (fs.bytesPerSector / 4) + clust_i) % 2 ^ 32
    | none => findFreeLoop fs d n (i + 1) (last + (fs.bytesPerSector / 4 - 1))

def fatFindFreeCluster (fs : FatFS) (d : Disk) : ℕ := findFreeLoop fs d fs.sectorPerFAT32 0 0

/-- Positions below 2 and past the last cluster are ignored. -/
def fatAllocCluster (fs : FatFS) (d : Disk) (position n_value : ℕ) : Disk :=
  if position < 2 ∨ 2 ^ 31 ≤ position ∨ (fs.totalClusters ≠ 0 ∧ fs.totalClusters ≤ position) then d
  else
    let bytes := if fs.bytesPerSector ≠ 0 then fs.bytesPerSector else 512
    let fat_sector := fs.fatBeginLBA + position * 4 / bytes
    let o := position * 4 % bytes
    let value := read32 (d fat_sector) o
    writeSector d fat_sector
      (write32 (d fat_sector) o (value / 2 ^ 28 * 2 ^ 28 + n_value % 2 ^ 28))

def fatClearCluster (fs : FatFS) (d : Disk) (cluster : ℕ) : Disk :=
  auVDiskWrite fs d (fatClusterToSector32 fs cluster) fs.sectorPerCluster fun _ => 0

/-! ## Directories -/

def nameAt (s : Sector) (i : ℕ) (name : ℕ → UInt8) : Bool :=
  (List.range 11).all fun k => s (32 * i + k) = name k

/-- A used directory entry; the time of the last write stays where `keepTime` is set. -/
def fillEntry (s : Sector) (i : ℕ) (name : ℕ → UInt8) (attrib : UInt8) (cluster : ℕ)
    (keepTime : Bool) : Sector := fun p =>
  if p < 32 * i ∨ 32 * i + 32 ≤ p then s p
  else
    let k := p - 32 * i
    if k < 11 then name k
    else if k = 11 then attrib
    else if k = 12 ∨ k = 13 then s p
    else if k = 20 then byte (cluster % 2 ^ 28) 2
    else if k = 21 then byte (cluster % 2 ^ 28) 3
    else if (k = 22 ∨ k = 23) ∧ keepTime then s p
    else if k = 26 then byte cluster 0
    else if k = 27 then byte cluster 1
    else 0

def entryFree (s : Sector) (i : ℕ) : Bool := s (32 * i) = 0 ∨ s (32 * i) = 0xE5

/-- The first free slot of a directory cluster: its sector and the place in it. -/
def slotIn (fs : FatFS) (d : Disk) (cluster : ℕ) : Option (ℕ × ℕ) :=
  (List.range fs.sectorPerCluster).findSome? fun j =>
    ((List.range 16).find? fun i => entryFree (d (fatClusterToSector32 fs cluster + j)) i).map (j, ·)

/-- The walk for a free slot, `n` clusters at most: still walking, no slot, or a slot. -/
def findSlot (fs : FatFS) (d : Disk) : ℕ → ℕ → Option (Option (ℕ × ℕ × ℕ))
  | 0, _ => none
  | n + 1, cluster =>
    match slotIn fs d cluster with
    | some (j, i) => some (some (cluster, j, i))
    | none =>
      let next := fatReadFAT fs d cluster
      if isEoc next then some none else findSlot fs d n next

def newNode (name : ℕ → UInt8) (cluster parent : ℕ) : AuVFSNode where
  name
  current := cluster
  first_block := cluster
  parent_block := parent

/-- From the point where the parent's cluster and the DOS name are known. -/
def fatCreateFile (fs : FatFS) (d : Disk) (n parent_cluster : ℕ) (fname : ℕ → UInt8) :
    Option (Disk × Option AuVFSNode) :=
  (findSlot fs d n parent_cluster).map fun slot =>
    match slot with
    | none => (d, none)
    | some (parent, j, i) =>
      let lba := fatClusterToSector32 fs parent + j
      let buff := d lba
      let cluster := fatFindFreeCluster fs d
      let d := fatAllocCluster fs d cluster FAT_EOC_MARK
      let d := fatClearCluster fs d cluster
      (writeSector d lba (fillEntry buff i fname FAT_ATTRIBUTE_ARCHIVE cluster false),
        some (newNode fname cluster parent))

def inTable (fs : FatFS) (cluster : ℕ) : Bool :=
  2 ≤ cluster ∧ (fs.totalClusters = 0 ∨ cluster < fs.totalClusters) ∧ ¬ isEoc cluster

/-- Whether a name is among entries; nothing where they go on in the next cluster. -/
def nameIn (name : ℕ → UInt8) : List (Sector × ℕ) → Option Bool
  | [] => none
  | (s, i) :: es =>
    if s (32 * i) = 0 then some false
    else if s (32 * i) = 0xE5 then nameIn name es
    else if nameAt s i name then some true
    else nameIn name es

def entries (fs : FatFS) (d : Disk) (cluster : ℕ) : List (Sector × ℕ) :=
  (List.range fs.sectorPerCluster).flatMap fun j =>
    (List.range 16).map fun i => (d (fatClusterToSector32 fs cluster + j), i)

/-- The walk that looks for an existing entry of the name. -/
def dirHas (fs : FatFS) (d : Disk) (name : ℕ → UInt8) : ℕ → ℕ → Option Bool
  | 0, _ => none
  | n + 1, cluster =>
    if ¬ inTable fs cluster then some false
    else
      match nameIn name (entries fs d cluster) with
      | some b => some b
      | none =>
        let next := fatReadFAT fs d cluster
        if isEoc next ∨ next < 2 then some false else dirHas fs d name n next

/-- The entries `.` and `..` of a new directory. -/
def dotSector (fs : FatFS) (cluster parent : ℕ) : ℕ → UInt8 :=
  let dot : ℕ → UInt8 := fun k => if k = 0 then 0x2E else 0x20
  let dotdot : ℕ → UInt8 := fun k => if k ≤ 1 then 0x2E else 0x20
  let up := if parent = fs.rootDirFirstCluster then 0 else parent
  fillEntry (fillEntry (fun _ => 0) 0 dot FAT_ATTRIBUTE_DIRECTORY cluster false) 1 dotdot
    FAT_ATTRIBUTE_DIRECTORY up false

def fatCreateDir (fs : FatFS) (d : Disk) (n parent_clust : ℕ) (fname : ℕ → UInt8) :
    Option (Disk × Option AuVFSNode) :=
  (dirHas fs d fname n parent_clust).bind fun has =>
    if has then some (d, none)
    else
      (findSlot fs d n parent_clust).map fun slot =>
        match slot with
        | none => (d, none)
        | some (parent, j, i) =>
          let lba := fatClusterToSector32 fs parent + j
          let buff := d lba
          let cluster := fatFindFreeCluster fs d
          let d := fatAllocCluster fs d cluster FAT_EOC_MARK
          let d := fatClearCluster fs d cluster
          let d := auVDiskWrite fs d (fatClusterToSector32 fs cluster) 1 (dotSector fs cluster parent)
          (writeSector d lba (fillEntry buff i fname FAT_ATTRIBUTE_DIRECTORY cluster true),
            some (newNode fname cluster parent))

/-- One page of a file. -/
def fatFileWriteContent (fs : FatFS) (d : Disk) (file : AuVFSNode) (buffer : ℕ → UInt8) :
    Disk × AuVFSNode :=
  let (d, cluster) :=
    if file.eof then
      let new_cluster := fatFindFreeCluster fs d
      let d := fatAllocCluster fs d file.current new_cluster
      let d := fatAllocCluster fs d new_cluster FAT_EOC_MARK
      (fatClearCluster fs d new_cluster, new_cluster)
    else (d, file.current)
  let ok := ¬ isEoc cluster ∧ cluster ≠ FAT_BAD_CLUSTER % 2 ^ 28
  let d := if ok then
    auVDiskWrite fs d (fatClusterToSector32 fs cluster) fs.sectorPerCluster buffer else d
  let pos := if ok then file.pos + 1 else file.pos
  let return_cluster := fatReadFAT fs d cluster
  (d, { file with
    pos
    size := pos * fs.sectorPerCluster * fs.bytesPerSector
    eof := isEoc return_cluster
    current := if isEoc return_cluster then cluster else return_cluster })

/-- The entry of the name in a directory cluster. -/
def entryIn (fs : FatFS) (d : Disk) (name : ℕ → UInt8) (cluster : ℕ) : Option (ℕ × ℕ) :=
  (List.range fs.sectorPerCluster).findSome? fun j =>
    ((List.range 16).find? fun i =>
      nameAt (d (fatClusterToSector32 fs cluster + j)) i name).map (j, ·)

def updateSizeLoop (fs : FatFS) (d : Disk) (name : ℕ → UInt8) (size : ℕ) : ℕ → ℕ → Option Disk
  | 0, _ => none
  | n + 1, dir_cluster =>
    match entryIn fs d name dir_cluster with
    | some (j, i) =>
      let lba := fatClusterToSector32 fs dir_cluster + j
      let s := d lba
      some (writeSector d lba
        (write32 s (32 * i + 28) ((read32 s (32 * i + 28) + size) % 2 ^ 32)))
    | none =>
      let next := fatReadFAT fs d dir_cluster
      if isEoc next then some d else updateSizeLoop fs d name size n next

def fatFileUpdateSize (fs : FatFS) (d : Disk) (n : ℕ) (file : AuVFSNode) (size : ℕ) :
    Option Disk :=
  if file.parent_block = 0 then some d
  else updateSizeLoop fs d file.name size n file.parent_block

/-- `num` clusters of the buffer, from the `i`th on. -/
def writeLoop (fs : FatFS) (buffer : ℕ → UInt8) : ℕ → ℕ → Disk → AuVFSNode → Disk × AuVFSNode
  | 0, _, d, file => (d, file)
  | num + 1, i, d, file =>
    let (d, file) := fatFileWriteContent fs d file fun a => buffer (i * fs.cluster_sz_in_bytes + a)
    writeLoop fs buffer num (i + 1) d file

def numCluster (fs : FatFS) (length : ℕ) : ℕ :=
  length / fs.cluster_sz_in_bytes + if length % fs.cluster_sz_in_bytes ≠ 0 then 1 else 0

def fatWrite (fs : FatFS) (d : Disk) (n : ℕ) (file : AuVFSNode) (buffer : ℕ → UInt8)
    (length : ℕ) : Option (Disk × AuVFSNode × ℕ) :=
  let (d, file) := writeLoop fs buffer (numCluster fs length) 0 d file
  (fatFileUpdateSize fs d n file length).map fun d => (d, file, length)

end Xeneva.Fat

/-!
# Reading a FAT32 file

A read follows the chain of clusters from the one that the last seek found, one page buffer a
cluster. A whole session on a new file is its creation, the calls that write it, a seek and a
read.
-/

namespace Xeneva.Fat

def auVDiskRead (fs : FatFS) (d : Disk) (lba count : ℕ) (buf : ℕ → UInt8) : ℕ → UInt8 := fun a =>
  if a < count * fs.bytesPerSector then d (lba + a / fs.bytesPerSector) (a % fs.bytesPerSector)
  else buf a

/-- The block address has 32 bits here. Past the end of the chain nothing is read. -/
def fatRead (fs : FatFS) (d : Disk) (file : AuVFSNode) (buf : ℕ → UInt8) :
    (ℕ → UInt8) × AuVFSNode :=
  if isEoc file.current then (buf, file)
  else
    let lba := fatClusterToSector32 fs file.current % 2 ^ 32
    let buf := auVDiskRead fs d lba fs.sectorPerCluster buf
    let value := fatReadFAT fs d file.current
    let last := value ≥ FAT_EOC_MARK % 2 ^ 28 ∨ value ≥ FAT_BAD_CLUSTER % 2 ^ 28
    (buf, { file with eof := last ∨ file.eof, current := value })

/-- `n` blocks are left; only in the first one are bytes skipped. -/
def readLoop (fs : FatFS) (d : Disk) :
    ℕ → ℕ → (ℕ → UInt8) → AuVFSNode → ℕ → List UInt8 × AuVFSNode
  | 0, _, _, file, _ => ([], file)
  | n + 1, skip, buff, file, length =>
    if file.eof then ([], file)
    else
      let avail := fs.cluster_sz_in_bytes - skip
      let to_copy := min length avail
      let (buff, file) := fatRead fs d file buff
      let copied := (List.range to_copy).map fun a => buff (skip + a)
      let (rest, file) := readLoop fs d n 0 buff file (length - to_copy)
      (copied ++ rest, file)

/-- `page` is what the page buffer holds before the read. -/
def fatReadFile (fs : FatFS) (d : Disk) (file : AuVFSNode) (length : ℕ) (page : ℕ → UInt8) :
    List UInt8 × AuVFSNode :=
  let skip := file.pos % fs.cluster_sz_in_bytes
  let total := length + skip
  let num_blocks := (total + fs.cluster_sz_in_bytes - 1) / fs.cluster_sz_in_bytes
  let (bytes, file) := readLoop fs d num_blocks skip page file length
  (bytes, { file with pos := 0 })

/-- `n` steps along the table. -/
def walk (fs : FatFS) (d : Disk) (n cluster : ℕ) : ℕ := (fatReadFAT fs d)^[n] cluster

/-- The cluster of a byte offset, from the last one found where that is not behind it. -/
def fatGetClusterFor (fs : FatFS) (d : Disk) (file : AuVFSNode) (offset : ℕ) : ℕ × AuVFSNode :=
  let index := offset / fs.cluster_sz_in_bytes
  let (start_index, cluster) :=
    if file.last_resolved_cluster ≠ 0 ∧ file.last_resolved_index ≤ index then
      (file.last_resolved_index, file.last_resolved_cluster)
    else (0, file.first_block)
  let cluster := walk fs d (index - start_index) cluster
  (cluster, { file with
    eof := if ¬ isEoc cluster ∧ file.eof then false else file.eof
    pos := offset % 2 ^ 32
    last_resolved_index := index
    last_resolved_cluster := cluster })

def fileSetOffset (fs : FatFS) (d : Disk) (file : AuVFSNode) (offset : ℕ) : AuVFSNode :=
  let (block, file) := fatGetClusterFor fs d file offset
  { file with current := block }

/-! ## A session -/

/-- A write call: the memory from the caller's buffer on, and the length. -/
structure Call where
  buffer : ℕ → UInt8
  length : ℕ

def Call.bytes (w : Call) : List UInt8 := (List.range w.length).map w.buffer

def fatWrites (fs : FatFS) (n : ℕ) : Disk → AuVFSNode → List Call → Option (Disk × AuVFSNode)
  | d, file, [] => some (d, file)
  | d, file, w :: ws =>
    (fatWrite fs d n file w.buffer w.length).bind fun (d, file, _) => fatWrites fs n d file ws

/-- The size in the directory entry of the file. -/
def recordedSize (fs : FatFS) (d : Disk) (file : AuVFSNode) : Option ℕ :=
  (entryIn fs d file.name file.parent_block).map fun (j, i) =>
    read32 (d (fatClusterToSector32 fs file.parent_block + j)) (32 * i + 28)

/-- A new file in a directory, whose walks pass at most `n` clusters. -/
structure Session where
  fs : FatFS
  disk : Disk
  n : ℕ
  parent_cluster : ℕ
  fname : ℕ → UInt8
  writes : List Call
  offset : ℕ
  length : ℕ
  page : ℕ → UInt8

/-- Create, write, seek, read: the bytes read, and the size recorded. -/
def Session.run (s : Session) : Option (List UInt8 × Option ℕ) :=
  (fatCreateFile s.fs s.disk s.n s.parent_cluster s.fname).bind fun (d, file) =>
    file.bind fun file =>
      (fatWrites s.fs s.n d file s.writes).map fun (d, file) =>
        let file := fileSetOffset s.fs d file s.offset
        ((fatReadFile s.fs d file s.length s.page).1, recordedSize s.fs d file)

def Session.contents (s : Session) : List UInt8 := s.writes.flatMap Call.bytes

/-- What was written comes back, and the size is its length. -/
def Session.RoundTrip (s : Session) : Prop :=
  s.run = some ((s.contents.drop s.offset).take s.length, some s.contents.length)

end Xeneva.Fat

/-!
# Removing files and directories

A removal marks the directory entry of the name as deleted and then frees the chain that the
node names. A directory is removed the same way once its entries up to the end mark are `.`,
`..` or deleted.
-/

namespace Xeneva.Fat

/-- The places of the entries in a cluster: the sector, and the entry in it. -/
def places (fs : FatFS) : List (ℕ × ℕ) :=
  (List.range fs.sectorPerCluster).flatMap fun j => (List.range 16).map fun i => (j, i)

def isEnd (s : Sector) (i : ℕ) : Bool := s (32 * i) = 0
def isDeleted (s : Sector) (i : ℕ) : Bool := s (32 * i) = 0xE5
def isLongName (s : Sector) (i : ℕ) : Bool :=
  s (32 * i + 11) &&& FAT_ATTRIBUTE_LONG_NAME = FAT_ATTRIBUTE_LONG_NAME

/-- The entry to delete among those of a cluster, or that there is none before the end mark;
nothing where they go on in the next cluster. -/
def clearIn (sector : ℕ → Sector) (name : ℕ → UInt8) : List (ℕ × ℕ) → Option (Option (ℕ × ℕ))
  | [] => none
  | (j, i) :: es =>
    if isEnd (sector j) i then some none
    else if isDeleted (sector j) i then clearIn sector name es
    else if isLongName (sector j) i then clearIn sector name es
    else if nameAt (sector j) i name then some (some (j, i))
    else clearIn sector name es

/-- The entry of the name in a directory, `n` clusters at most. -/
def findEntry (fs : FatFS) (d : Disk) (name : ℕ → UInt8) :
    ℕ → ℕ → Option (Option (ℕ × ℕ × ℕ))
  | 0, _ => none
  | n + 1, dir_clust =>
    if ¬ inTable fs dir_clust then some none
    else
      match clearIn (fun j => d (fatClusterToSector32 fs dir_clust + j)) name (places fs) with
      | some found => some (found.map fun (j, i) => (dir_clust, j, i))
      | none =>
        let next := fatReadFAT fs d dir_clust
        if isEoc next ∨ next < 2 then some none else findEntry fs d name n next

/-- The disk without the entry of the name, and whether there was one. -/
def fatFileClearDirEntry (fs : FatFS) (d : Disk) (n : ℕ) (file : AuVFSNode) :
    Option (Disk × Bool) :=
  (findEntry fs d file.name n file.parent_block).map fun found =>
    match found with
    | none => (d, false)
    | some (dir_clust, j, i) =>
      let lba := fatClusterToSector32 fs dir_clust + j
      (writeSector d lba (Function.update (d lba) (32 * i) 0xE5), true)

/-- The chain is freed entry by entry, `n` at most. -/
def freeChain (fs : FatFS) : ℕ → Disk → ℕ → Option Disk
  | 0, _, _ => none
  | n + 1, d, cluster =>
    let next_cluster := fatReadFAT fs d cluster
    let d := fatAllocCluster fs d cluster 0
    if isEoc next_cluster ∨ next_cluster < 2 ∨
        (fs.totalClusters ≠ 0 ∧ fs.totalClusters ≤ next_cluster) then some d
    else freeChain fs n d next_cluster

/-- The disk, and whether the file was removed. -/
def fatFileRemove (fs : FatFS) (d : Disk) (n : ℕ) (file : AuVFSNode) : Option (Disk × Bool) :=
  (fatFileClearDirEntry fs d n file).bind fun (d, found) =>
    if ¬ found then some (d, false)
    else if inTable fs file.first_block then
      (freeChain fs n d file.first_block).map fun d => (d, true)
    else some (d, true)

/-- Whether the entries are `.`, `..` or deleted up to the end mark. -/
def emptyIn (sector : ℕ → Sector) : List (ℕ × ℕ) → Option Bool
  | [] => none
  | (j, i) :: es =>
    if isEnd (sector j) i then some true
    else if isDeleted (sector j) i then emptyIn sector es
    else if sector j (32 * i) = 0x2E then emptyIn sector es
    else some false

def dirEmpty (fs : FatFS) (d : Disk) : ℕ → ℕ → Option Bool
  | 0, _ => none
  | n + 1, dir_clust =>
    if ¬ inTable fs dir_clust then some true
    else
      match emptyIn (fun j => d (fatClusterToSector32 fs dir_clust + j)) (places fs) with
      | some b => some b
      | none =>
        let next_clust := fatReadFAT fs d dir_clust
        if isEoc next_clust ∨ next_clust < 2 then some true else dirEmpty fs d n next_clust

def fatRemoveDir (fs : FatFS) (d : Disk) (n : ℕ) (file : AuVFSNode) : Option (Disk × Bool) :=
  if file.current < 2 then some (d, false)
  else
    (dirEmpty fs d n file.current).bind fun is_empty =>
      if is_empty then fatFileRemove fs d n file else some (d, false)

end Xeneva.Fat
