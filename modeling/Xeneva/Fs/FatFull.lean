import Xeneva.Fs.Fat

/-!
# A full volume

The search for a free cluster answers 0 when there is none, and nobody looks at the answer.
An operation on a full volume fails cleanly only where it stops before it needs the cluster.
-/

namespace Xeneva.Fat

variable {fs : FatFS} {d : Disk} {n : ℕ}

/-- No entry of the table from 2 on is free. -/
def NoFree (fs : FatFS) (d : Disk) : Prop :=
  ∀ i < fs.sectorPerFAT32, ∀ k < fs.bytesPerSector / 4, 2 ≤ i * (fs.bytesPerSector / 4) + k →
    read32 (d (fs.fatBeginLBA + i)) (k * 4) ≠ 0

/-! ## Operations -/

inductive FatOp
  | create (parent : ℕ) (name : ℕ → UInt8)
  | mkdir (parent : ℕ) (name : ℕ → UInt8)
  | write (file : AuVFSNode) (buffer : ℕ → UInt8) (length : ℕ)

/-- The disk after an operation and whether it succeeded, if it ends within `n` clusters of
each directory walk. -/
def runOp (fs : FatFS) (d : Disk) (n : ℕ) : FatOp → Option (Disk × Bool)
  | .create parent name => (fatCreateFile fs d n parent name).map fun r => (r.1, r.2.isSome)
  | .mkdir parent name => (fatCreateDir fs d n parent name).map fun r => (r.1, r.2.isSome)
  | .write file buffer length =>
    (fatWrite fs d n file buffer length).map fun r => (r.1, r.2.2 = length)

/-- A new entry always needs a cluster, a write does at the end of the file's chain. -/
def NeedsCluster : FatOp → Prop
  | .create _ _ => True
  | .mkdir _ _ => True
  | .write file _ length => file.eof = true ∧ length ≠ 0

/-- The operation ends, fails, and leaves the disk as it was. -/
def FailsCleanly (fs : FatFS) (d : Disk) (op : FatOp) : Prop :=
  ∃ n, runOp fs d n op = some (d, false)

/-- The operation stops before it looks for a cluster. -/
def Refused (fs : FatFS) (d : Disk) : FatOp → Prop
  | .create parent _ => ∃ n, findSlot fs d n parent = some none
  | .mkdir parent name => ∃ n, dirHas fs d name n parent = some true ∨
      (dirHas fs d name n parent = some false ∧ findSlot fs d n parent = some none)
  | .write _ _ _ => False

theorem fatCreateFile_fails (parent : ℕ) (name : ℕ → UInt8) (d' : Disk) :
    fatCreateFile fs d n parent name = some (d', none) ↔
      d' = d ∧ findSlot fs d n parent = some none := by
  unfold fatCreateFile
  cases hs : findSlot fs d n parent with
  | none => simp
  | some slot =>
    cases slot with
    | none => simp [eq_comm]
    | some s => simp

theorem fatCreateDir_fails (parent : ℕ) (name : ℕ → UInt8) (d' : Disk) :
    fatCreateDir fs d n parent name = some (d', none) ↔
      d' = d ∧ (dirHas fs d name n parent = some true ∨
        (dirHas fs d name n parent = some false ∧ findSlot fs d n parent = some none)) := by
  unfold fatCreateDir
  cases hd : dirHas fs d name n parent with
  | none => simp
  | some has =>
    cases has with
    | true => simp [eq_comm]
    | false =>
      cases hs : findSlot fs d n parent with
      | none => simp
      | some slot =>
        cases slot with
        | none => simp [eq_comm]
        | some s => simp

theorem fatWrite_returns {file file' : AuVFSNode} {buffer : ℕ → UInt8} {length r : ℕ} {d' : Disk}
    (h : fatWrite fs d n file buffer length = some (d', file', r)) : r = length := by
  unfold fatWrite at h
  dsimp only at h
  obtain ⟨s, -, hs⟩ := Option.map_eq_some_iff.mp h
  exact ((Prod.mk.inj (Prod.mk.inj hs).2).2).symm

/-- On every volume, full or not, an operation fails and leaves the disk alone exactly if it
stops before it looks for a cluster. -/
theorem failsCleanly_iff (fs : FatFS) (d : Disk) (op : FatOp) :
    FailsCleanly fs d op ↔ Refused fs d op := by
  cases op with
  | create parent name =>
    refine exists_congr fun n => ?_
    unfold runOp
    rw [Option.map_eq_some_iff]
    constructor
    · rintro ⟨⟨d', r⟩, hr, hd⟩
      obtain ⟨rfl, hnone⟩ := Prod.mk.inj hd
      rw [Option.isSome_eq_false_iff, Option.isNone_iff_eq_none] at hnone
      dsimp only at hnone
      rw [hnone] at hr
      exact ((fatCreateFile_fails parent name _).mp hr).2
    · intro hs
      exact ⟨(d, none), (fatCreateFile_fails parent name d).mpr ⟨rfl, hs⟩, rfl⟩
  | mkdir parent name =>
    refine exists_congr fun n => ?_
    unfold runOp
    rw [Option.map_eq_some_iff]
    constructor
    · rintro ⟨⟨d', r⟩, hr, hd⟩
      obtain ⟨rfl, hnone⟩ := Prod.mk.inj hd
      rw [Option.isSome_eq_false_iff, Option.isNone_iff_eq_none] at hnone
      dsimp only at hnone
      rw [hnone] at hr
      exact ((fatCreateDir_fails parent name _).mp hr).2
    · intro hs
      exact ⟨(d, none), (fatCreateDir_fails parent name d).mpr ⟨rfl, hs⟩, rfl⟩
  | write file buffer length =>
    refine iff_of_false ?_ id
    rintro ⟨n, hr⟩
    obtain ⟨⟨d', file', r⟩, hw, hd⟩ := Option.map_eq_some_iff.mp hr
    have hfalse := (Prod.mk.inj hd).2
    rw [decide_eq_false_iff_not] at hfalse
    exact hfalse (fatWrite_returns hw)

/-- A volume of 65720 sectors with one table of 65 sectors, behind 32 reserved ones. -/
def fullFS : FatFS where
  fatBeginLBA := 32
  clusterBeginLBA := 97
  sectorPerCluster := 8
  rootDirFirstCluster := 2
  sectorPerFAT32 := 65
  totalClusters := 8215
  bytesPerSector := 512
  behind := fun _ => 0

/-- Every table entry is an end-of-chain mark; the root directory is empty. -/
def fullDisk : Disk := fun lba o =>
  if 32 ≤ lba ∧ lba < 97 then (if o % 4 = 3 then 0x0F else 0xFF) else 0

theorem noFree_fullDisk : NoFree fullFS fullDisk := by
  intro i hi k _ _
  have hi : i < 65 := hi
  have hs : 32 ≤ fullFS.fatBeginLBA + i ∧ fullFS.fatBeginLBA + i < 97 := by
    simp only [fullFS]
    omega
  have hb : fullDisk (fullFS.fatBeginLBA + i) (k * 4) = 0xFF := by
    unfold fullDisk
    rw [if_pos hs, if_neg (by omega)]
  have hpos : (0xFF : UInt8).toNat = 255 := rfl
  unfold read32
  rw [hb, hpos]
  omega

/-- A new file in the root directory of the full volume. -/
theorem not_failsCleanly : ¬ ∀ fs d op, NoFree fs d → NeedsCluster op → FailsCleanly fs d op := by
  intro h
  obtain ⟨n, hr⟩ := h fullFS fullDisk (.create 2 fun _ => 0x41) noFree_fullDisk trivial
  obtain ⟨⟨d', r⟩, hc, hd⟩ := Option.map_eq_some_iff.mp hr
  obtain ⟨rfl, hnone⟩ := Prod.mk.inj hd
  rw [Option.isSome_eq_false_iff, Option.isNone_iff_eq_none] at hnone
  dsimp only at hnone
  rw [hnone] at hc
  have hslot := ((fatCreateFile_fails _ _ _).mp hc).2
  have hin : slotIn fullFS fullDisk 2 = some (0, 0) := by decide +kernel
  cases n with
  | zero => cases hslot
  | succ n =>
    rw [findSlot, hin] at hslot
    cases hslot

end Xeneva.Fat
