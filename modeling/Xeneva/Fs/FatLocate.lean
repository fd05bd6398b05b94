import Xeneva.Base.Orbit
import Xeneva.Fs.FatDirs

/-!
# Looking a name up

The root directory and the directory of a node are searched cluster by cluster along the links
of the table. No step is counted and no cluster remembered, so a search ends unless the links
run into a cycle before a cluster that holds the name and before an end mark.
-/

namespace Xeneva.Fat

open Base

/-- What a search gives; `directory` tells which of the two flags is set. -/
structure Located where
  node : AuVFSNode
  directory : Bool

def read16 (s : Sector) (o : ℕ) : ℕ := (s o).toNat + (s (o + 1)).toNat * 2 ^ 8

/-- The node of the entry at an offset. The cluster is an `int` before it becomes 64 bits long. -/
def located (s : Sector) (o : ℕ) (name : ℕ → UInt8) (parent_block : ℕ) (directory : Bool) :
    Located :=
  let first := read16 s (o + 20) * 2 ^ 16 + read16 s (o + 26)
  { node := {
      name
      size := read32 s (o + 28)
      current := if first < 2 ^ 31 then first else first + (2 ^ 64 - 2 ^ 32)
      first_block := first
      parent_block }
    directory }

/-- The entry of the name in a buffer that holds a cluster. -/
def entryOf (fs : FatFS) (name : ℕ → UInt8) (buf : ℕ → UInt8) : Option ℕ :=
  (List.range (16 * fs.sectorPerCluster)).find? fun i => nameAt buf i name

/-- The buffer keeps what was read before. -/
def locateSubDirLoop (fs : FatFS) (d : Disk) (name : ℕ → UInt8) :
    ℕ → AuVFSNode → (ℕ → UInt8) → Option (Option Located)
  | 0, _, _ => none
  | n + 1, kfile, buf =>
    if kfile.eof then some none
    else
      let (buf, kfile) := fatRead fs d kfile buf
      match entryOf fs name buf with
      | some i =>
        some (some (located buf (32 * i) name kfile.first_block
          (buf (32 * i + 11) &&& 0x10 ≠ 0)))
      | none => locateSubDirLoop fs d name n kfile buf

variable {fs : FatFS} {d : Disk} {name page : ℕ → UInt8} {kfile : AuVFSNode} {n c : ℕ}

/-- The buffer once a cluster is read into it. -/
def pageOf (fs : FatFS) (d : Disk) (page : ℕ → UInt8) (c : ℕ) : ℕ → UInt8 :=
  auVDiskRead fs d (fatClusterToSector32 fs c % 2 ^ 32) fs.sectorPerCluster page

def subDirOut (fs : FatFS) (d : Disk) (name page : ℕ → UInt8) (first_block c : ℕ) :
    Option (Option Located) :=
  match entryOf fs name (pageOf fs d page c) with
  | some i =>
    let buf := pageOf fs d page c
    some (some (located buf (32 * i) name first_block (buf (32 * i + 11) &&& 0x10 ≠ 0)))
  | none => if 0x0FFFFFF7 ≤ fatReadFAT fs d c then some none else none

/-- The search stands on the cluster `c`, on no mark. What the buffer holds is the page but for
what a read puts there. -/
structure Walking (fs : FatFS) (d : Disk) (page : ℕ → UInt8) (kfile : AuVFSNode)
    (buf : ℕ → UInt8) (c : ℕ) : Prop where
  eof : kfile.eof = false
  mark : isEoc c = false
  current : kfile.current = c
  page : ∀ a, fs.sectorPerCluster * fs.bytesPerSector ≤ a → buf a = page a

theorem Walking.pageOf_eq {buf : ℕ → UInt8} (h : Walking fs d page kfile buf c) (c' : ℕ) :
    pageOf fs d buf c' = pageOf fs d page c' := by
  funext a
  rw [pageOf, pageOf, auVDiskRead, auVDiskRead]
  split_ifs with ha
  · rfl
  · exact h.page a (Nat.le_of_not_lt ha)

theorem Walking.fatRead_eq {buf : ℕ → UInt8} (h : Walking fs d page kfile buf c) :
    fatRead fs d kfile buf = (pageOf fs d page c, { kfile with
      eof := decide (0x0FFFFFF7 ≤ fatReadFAT fs d c)
      current := fatReadFAT fs d c }) := by
  have hmark : FAT_EOC_MARK % 2 ^ 28 = 0x0FFFFFF8 := rfl
  have hbad : FAT_BAD_CLUSTER % 2 ^ 28 = 0x0FFFFFF7 := rfl
  rw [fatRead, h.current, h.mark, if_neg Bool.false_ne_true, h.eof, ← h.pageOf_eq]
  simp only [pageOf, hmark, hbad, ge_iff_le, Bool.false_eq_true, or_false]
  congr 3
  exact propext ⟨fun h => by omega, .inr⟩

/-- One round: found, at the end in the next round, or a step further. -/
theorem Walking.round {buf : ℕ → UInt8} (h : Walking fs d page kfile buf c)
    (name : ℕ → UInt8) :
    (∃ l, subDirOut fs d name page kfile.first_block c = some (some l) ∧
      ∀ n, locateSubDirLoop fs d name (n + 1) kfile buf = some (some l)) ∨
    (subDirOut fs d name page kfile.first_block c = some none ∧
      ∀ n, locateSubDirLoop fs d name (n + 2) kfile buf = some none) ∨
    (subDirOut fs d name page kfile.first_block c = none ∧
      ∃ kfile' buf', kfile'.first_block = kfile.first_block ∧
        Walking fs d page kfile' buf' (fatReadFAT fs d c) ∧
        ∀ n, locateSubDirLoop fs d name (n + 1) kfile buf =
          locateSubDirLoop fs d name n kfile' buf') := by
  have hgo : ¬ kfile.eof = true := by rw [h.eof]; exact Bool.false_ne_true
  simp only [locateSubDirLoop, if_neg hgo, h.fatRead_eq, subDirOut]
  cases entryOf fs name (pageOf fs d page c) with
  | some i => exact .inl ⟨_, rfl, fun _ => rfl⟩
  | none =>
    by_cases hv : 0x0FFFFFF7 ≤ fatReadFAT fs d c
    · refine .inr (.inl ⟨if_pos hv, ?_⟩)
      intro n
      exact if_pos (decide_eq_true hv)
    · refine .inr (.inr ⟨if_neg hv, { kfile with
        eof := decide (0x0FFFFFF7 ≤ fatReadFAT fs d c)
        current := fatReadFAT fs d c }, pageOf fs d page c, rfl, ?_, fun _ => rfl⟩)
      refine ⟨decide_eq_false hv, ?_, rfl, ?_⟩
      · have hmark : FAT_EOC_MARK % 2 ^ 28 = 0x0FFFFFF8 := rfl
        rw [isEoc, hmark, decide_eq_false_iff_not]
        omega
      · intro a ha
        rw [pageOf, auVDiskRead, if_neg (Nat.not_lt_of_le ha)]

/-- Where the walk ends, the search does one round later at most. -/
theorem Walking.isSome {buf : ℕ → UInt8} (h : Walking fs d page kfile buf c)
    (hs : (follow (fatReadFAT fs d) (subDirOut fs d name page kfile.first_block) n c).isSome) :
    (locateSubDirLoop fs d name (n + 1) kfile buf).isSome := by
  induction n generalizing kfile buf c with
  | zero => exact absurd hs Bool.false_ne_true
  | succ n ih =>
    rcases h.round name with ⟨l, _, hl⟩ | ⟨_, hl⟩ | ⟨hout, kfile', buf', hb, hw, hl⟩
    · rw [hl]
      rfl
    · rw [hl]
      rfl
    · rw [follow, hout] at hs
      rw [hl]
      exact ih hw (hb ▸ hs)

theorem Walking.start (page : ℕ → UInt8) (hc : isEoc kfile.current = false)
    (he : kfile.eof = false) : Walking fs d page kfile page kfile.current where
  eof := he
  mark := hc
  current := rfl
  page _ _ := rfl

/-- Clusters of one sector, the table in sector 32. -/
def oneSectorFs : FatFS where
  fatBeginLBA := 32
  clusterBeginLBA := 64
  sectorPerCluster := 1
  rootDirFirstCluster := 2
  sectorPerFAT32 := 1
  totalClusters := 100
  bytesPerSector := 512
  behind _ := 0

end Xeneva.Fat
