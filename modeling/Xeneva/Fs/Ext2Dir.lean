import Xeneva.Base.Records
import Xeneva.Base.Run

/-!
# Directories of ext2

The records of one directory: an entry is added into the slack of another, or into a new block, and
a removed one is merged with the record before it. The blocks of the bitmaps and of the inode table
are others; they are kept apart. Names are texts without a zero.
-/

namespace Xeneva.Ext2

open Base Function

/-- A volume whose blocks fit into a page. -/
structure Ext2Fs where
  log_block_size : ℕ
  free_data_block : ℕ
  small : log_block_size ≤ 2
  first : free_data_block ≤ 1

def Ext2Fs.block_size (fs : Ext2Fs) : ℕ := 1024 * 2 ^ fs.log_block_size

def Ext2Fs.sector_per_block (fs : Ext2Fs) : ℕ := fs.block_size / 512

abbrev Buf := ℕ → UInt8

abbrev Name := List UInt8

/-- `block` are the blocks of the directory, in their order; the first twelve are in the inode.
`bitmap` is the one of the first group. `last` has what was added last under each name, its inode
and its type, unless it was removed. -/
structure State where
  disk : Buf
  block : ℕ → ℕ
  size : ℕ
  bitmap : ℕ → Bool
  free_blocks_count : ℕ
  group_free_blocks : ℕ
  last : Name → Option (ℕ × UInt8)

/-- Into a buffer of zeros. -/
def auVDiskRead (s : State) (lba count : ℕ) : Buf := fun o =>
  if o < count * 512 then s.disk (lba * 512 + o) else 0

def auVDiskWrite (s : State) (lba count : ℕ) (b : Buf) : State :=
  { s with disk := fun a =>
      if lba * 512 ≤ a ∧ a < (lba + count) * 512 then b (a - lba * 512) else s.disk a }

def readBlock (fs : Ext2Fs) (s : State) (lba : ℕ) : Buf := auVDiskRead s lba fs.sector_per_block

def ext2AllocBlock (fs : Ext2Fs) (s : State) : State × ℕ :=
  if s.free_blocks_count = 0 ∨ s.group_free_blocks = 0 then (s, 0)
  else
    match (List.range (8 * fs.block_size)).find? fun k => !s.bitmap k with
    | none => (s, 0)
    | some k =>
      let s := { s with bitmap := update s.bitmap k true }
      if k + fs.free_data_block = 0 then (s, 0)
      else
        ({ s with
            free_blocks_count := s.free_blocks_count - 1
            group_free_blocks := s.group_free_blocks - 1 }, k + fs.free_data_block)

def EXT2_DIR_REC_LEN (name_len : ℕ) : ℕ := (8 + name_len + 3) / 4 * 4

def inodeAt (b : Buf) (q : ℕ) : ℕ := getLe b q 4

def recLenAt (b : Buf) (q : ℕ) : ℕ := getLe b (q + 4) 2

def nameLenAt (b : Buf) (q : ℕ) : ℕ := (b (q + 6)).toNat

def nameAt (b : Buf) (q : ℕ) : Name := (List.range (nameLenAt b q)).map fun i => b (q + 8 + i)

/-- The walk over a block: it stops at a record of no length as well. -/
def walk (fs : Ext2Fs) (b : Buf) (test : ℕ → Bool) : Option (Option ℕ × ℕ) :=
  scanRecords fs.block_size (recLenAt b) (fun q => recLenAt b q = 0 || test q)
    (fs.block_size + 1) none 0

/-- The test for an entry of this name. -/
def isEntry (b : Buf) (name : Name) (q : ℕ) : Bool := inodeAt b q ≠ 0 && nameAt b q = name

def findIn (fs : Ext2Fs) (b : Buf) (name : Name) : Option ℕ :=
  (walk fs b (isEntry b name)).map fun r => if recLenAt b r.2 = 0 then 0 else inodeAt b r.2

/-- The product is one of 32 bits here. -/
def ext2FindEntry (fs : Ext2Fs) (s : State) (name : Name) : ℕ :=
  ((List.range 12).findSome? fun i =>
    if s.block i = 0 then none
    else findIn fs (readBlock fs s (s.block i * fs.sector_per_block % 2 ^ 32)) name).getD 0

def putEntry (b : Buf) (q inode rec_len : ℕ) (name : Name) (file_type : UInt8) : Buf :=
  let b := putLe b q 4 inode
  let b := putLe b (q + 4) 2 rec_len
  let b := putLe b (q + 6) 1 name.length
  let b := putLe b (q + 7) 1 file_type.toNat
  putBytes b (q + 8) name

/-- The first record with room behind it. -/
def roomIn (fs : Ext2Fs) (b : Buf) (required_rec_len : ℕ) : Option ℕ :=
  (walk fs b fun q => EXT2_DIR_REC_LEN (nameLenAt b q) + required_rec_len ≤ recLenAt b q).bind
    fun r => if recLenAt b r.2 = 0 then none else some r.2

/-- Where the loop of `Ext2AddDirEntry` ends: at a block that is not there, or at a record. -/
def addPlace (fs : Ext2Fs) (s : State) (required_rec_len : ℕ) : Option (ℕ × Option ℕ) :=
  (List.range 12).findSome? fun i =>
    if s.block i = 0 then some (i, none)
    else (roomIn fs (readBlock fs s (s.block i * fs.sector_per_block)) required_rec_len).map
      fun q => (i, some q)

def ext2AddDirEntry (fs : Ext2Fs) (s : State) (inode : ℕ) (name : Name) (file_type : UInt8) :
    State × ℤ :=
  match addPlace fs s (EXT2_DIR_REC_LEN name.length % 2 ^ 16) with
  | none => (s, -1)
  | some (i, none) =>
    let r := ext2AllocBlock fs s
    if r.2 = 0 then (r.1, -1)
    else
      let s := { r.1 with
        block := update r.1.block i r.2
        size := r.1.size + fs.block_size }
      (auVDiskWrite s (r.2 * fs.sector_per_block) fs.sector_per_block
        (putEntry (fun _ => 0) 0 inode fs.block_size name file_type), 0)
  | some (i, some q) =>
    let lba := s.block i * fs.sector_per_block
    let b := readBlock fs s lba
    let old := recLenAt b q
    let actual := EXT2_DIR_REC_LEN (nameLenAt b q)
    let b := putLe b (q + 4) 2 actual
    (auVDiskWrite s lba fs.sector_per_block
      (putEntry b (q + actual) inode (old - actual) name file_type), 0)

def removeIn (fs : Ext2Fs) (b : Buf) (name : Name) : Option Buf :=
  (walk fs b (isEntry b name)).bind fun r =>
    if recLenAt b r.2 = 0 then none
    else
      match r.1 with
      | some p => some (putLe b (p + 4) 2 (recLenAt b p + recLenAt b r.2))
      | none => some (putLe b r.2 4 0)

def ext2RemoveDirEntry (fs : Ext2Fs) (s : State) (name : Name) : State × ℤ :=
  let place := (List.range 12).findSome? fun i =>
    if s.block i = 0 then none
    else (removeIn fs (readBlock fs s (s.block i * fs.sector_per_block)) name).map fun b => (i, b)
  match place with
  | none => (s, -1)
  | some (i, b) =>
    (auVDiskWrite s (s.block i * fs.sector_per_block) fs.sector_per_block b, 0)

structure AuDirectoryEntry where
  filename : Name
  flags : ℕ

def FS_FLAG_DIRECTORY : ℕ := 2

def FS_FLAG_GENERAL : ℕ := 4

def dirEntry (name : Name) (file_type : UInt8) : AuDirectoryEntry :=
  ⟨name.take 31, if file_type = 2 then FS_FLAG_DIRECTORY else FS_FLAG_GENERAL⟩

/-- The loop of `Ext2ReadDir`: the position after it, and the entry, if there is one. -/
def ext2ReadDir (fs : Ext2Fs) (s : State) : ℕ → ℕ → ℕ × Option AuDirectoryEntry
  | 0, pos => (pos, none)
  | n + 1, pos =>
    if pos < s.size then
      let i := pos / fs.block_size
      let o := pos % fs.block_size
      if 12 ≤ i then (pos, none)
      else if s.block i = 0 then ext2ReadDir fs s n (pos + (fs.block_size - o))
      else
        let b := readBlock fs s (s.block i * fs.sector_per_block)
        if recLenAt b o = 0 then ext2ReadDir fs s n (pos + (fs.block_size - o))
        else if inodeAt b o = 0 then ext2ReadDir fs s n (pos + recLenAt b o)
        else (pos + recLenAt b o, some (dirEntry (nameAt b o) (b (o + 7))))
    else (pos, none)

/-- Calls until there is no entry. -/
def readFrom (fs : Ext2Fs) (s : State) : ℕ → ℕ → List AuDirectoryEntry
  | 0, _ => []
  | n + 1, pos =>
    match ext2ReadDir fs s (s.size + 1) pos with
    | (_, none) => []
    | (pos, some e) => e :: readFrom fs s n pos

def readAll (fs : Ext2Fs) (s : State) : List AuDirectoryEntry := readFrom fs s (s.size + 1) 0

inductive Op
  | add (inode : ℕ) (name : Name) (file_type : UInt8)
  | lookup (name : Name)
  | remove (name : Name)
  | read

def step (fs : Ext2Fs) (s : State) : Op → State
  | .add inode name file_type =>
    let r := ext2AddDirEntry fs s inode name file_type
    if r.2 = 0 then { r.1 with last := update s.last name (some (inode, file_type)) } else r.1
  | .lookup _ => s
  | .remove name => { (ext2RemoveDirEntry fs s name).1 with last := update s.last name none }
  | .read => s

/-! ## Well-formed directories -/

structure Rec where
  inode : ℕ
  rec_len : ℕ
  name : Name
  file_type : UInt8

def recAt (b : Buf) (q : ℕ) : Rec := ⟨inodeAt b q, recLenAt b q, nameAt b q, b (q + 7)⟩

structure Rec.Good (r : Rec) : Prop where
  room : EXT2_DIR_REC_LEN r.name.length ≤ r.rec_len
  aligned : 4 ∣ r.rec_len

/-- The records fill the block. -/
def FillsBlock (fs : Ext2Fs) (b : Buf) (rs : List Rec) : Prop :=
  Records recAt Rec.rec_len Rec.Good b 0 rs fs.block_size

/-- The entries among records. -/
def live (rs : List Rec) : List (Name × ℕ × UInt8) :=
  (rs.filter fun r => r.inode ≠ 0).map fun r => (r.name, r.inode, r.file_type)

def blockData (fs : Ext2Fs) (s : State) (i : ℕ) : Buf :=
  readBlock fs s (s.block i * fs.sector_per_block)

/-- A directory of `n` blocks with these records: they fill every block, no name stands twice, and
the blocks are marked as used. -/
structure WellFormed (fs : Ext2Fs) (s : State) (n : ℕ) (recs : ℕ → List Rec) : Prop where
  block : ∀ i, s.block i ≠ 0 ↔ i < n
  inj : ∀ i < n, ∀ j < n, s.block i = s.block j → i = j
  size : s.size = n * fs.block_size
  fills : ∀ i < n, FillsBlock fs (blockData fs s i) (recs i)
  used : ∀ i < n, ∀ k < 8 * fs.block_size, s.block i = k + fs.free_data_block → s.bitmap k = true
  listed : Listed (live ((List.range n).flatMap recs)) s.last

/-- What is claimed of a state. -/
structure Fine (fs : Ext2Fs) (s : State) : Prop where
  wellFormed : ∃ n recs, WellFormed fs s n recs
  short : ∀ name, s.last name ≠ none → name.length ≤ 255
  lookup : ∀ name, ext2FindEntry fs s name = ((s.last name).map Prod.fst).getD 0
  read : ∃ names : List Name, names.Nodup ∧ (∀ name, name ∈ names ↔ s.last name ≠ none) ∧
    readAll fs s = names.map fun name =>
      dirEntry name (((s.last name).map Prod.snd).getD 0)

/-- An inode has a number of 32 bits. -/
def Op.Proper : Op → Prop
  | .add inode _ _ => inode < 2 ^ 32
  | _ => True

/-- An entry that is added has a short name, which is not there yet, and an inode. -/
def Fits (s : State) : Op → Prop
  | .add inode name _ => inode ≠ 0 ∧ name.length ≤ 255 ∧ s.last name = none
  | _ => True

end Xeneva.Ext2

/-!
# One block of a directory

What lookups, additions and removals do to the records of the block they end in.
-/

namespace Xeneva.Ext2

open Base Function

variable {fs : Ext2Fs} {b c : Buf} {rs : List Rec} {name : Name}

theorem Ext2Fs.block_size_spec (fs : Ext2Fs) : 1024 ≤ fs.block_size ∧ fs.block_size ≤ 4096 ∧
    fs.block_size = fs.sector_per_block * 512 ∧ 4 ∣ fs.block_size := by
  obtain ⟨l, d, hl, hd⟩ := fs
  simp only [block_size, sector_per_block]
  interval_cases l <;> decide

theorem le_EXT2_DIR_REC_LEN (k : ℕ) : 8 + k ≤ EXT2_DIR_REC_LEN k := by
  rw [EXT2_DIR_REC_LEN]
  omega

theorem EXT2_DIR_REC_LEN_le (k : ℕ) : EXT2_DIR_REC_LEN k ≤ k + 11 := by
  rw [EXT2_DIR_REC_LEN]
  omega

theorem four_dvd_EXT2_DIR_REC_LEN (k : ℕ) : 4 ∣ EXT2_DIR_REC_LEN k := Nat.dvd_mul_left 4 _

@[simp] theorem nameAt_length (b : Buf) (q : ℕ) : (nameAt b q).length = nameLenAt b q := by
  rw [nameAt, List.length_map, List.length_range]

theorem nameLenAt_lt (b : Buf) (q : ℕ) : nameLenAt b q < 256 := (b (q + 6)).toNat_lt

theorem Rec.Good.le {r : Rec} (h : r.Good) : 8 + r.name.length ≤ r.rec_len :=
  (le_EXT2_DIR_REC_LEN _).trans h.room

theorem recAt_congr {p : ℕ} (h : ∀ i, p ≤ i → i < p + 8 + nameLenAt b p → b i = c i) :
    recAt c p = recAt b p := by
  have hlen : nameLenAt c p = nameLenAt b p := by
    rw [nameLenAt, nameLenAt, h (p + 6) (by omega) (by omega)]
  have hinode : inodeAt c p = inodeAt b p :=
    getLe_congr fun i hi hi' => (h i hi (by omega)).symm
  have hrec : recLenAt c p = recLenAt b p :=
    getLe_congr fun i hi hi' => (h i (by omega) (by omega)).symm
  have hname : nameAt c p = nameAt b p := by
    rw [nameAt, nameAt, hlen]
    apply List.map_congr_left
    intro i hi
    have hi' := List.mem_range.1 hi
    exact (h (p + 8 + i) (by omega) (by omega)).symm
  rw [recAt, recAt, hinode, hrec, hname, h (p + 7) (by omega) (by omega)]

theorem local_recAt : Local recAt Rec.rec_len Rec.Good where
  pos r hr := by
    have := hr.le
    omega
  congr b c p hok h := by
    apply recAt_congr
    intro i hi hi'
    have hle := hok.le
    rw [recAt, nameAt_length] at hle
    exact h i hi (by rw [recAt]; omega)

theorem putEntry_of_ne {q inode rec_len p : ℕ} {file_type : UInt8}
    (h : p < q ∨ q + 8 + name.length ≤ p) :
    putEntry b q inode rec_len name file_type p = b p := by
  rw [putEntry, putBytes_of_ne (by omega), putLe_of_ne (by omega), putLe_of_ne (by omega),
    putLe_of_ne (by omega), putLe_of_ne (by omega)]

theorem putLe_one (b : Buf) (o v : ℕ) : putLe b o 1 v o = UInt8.ofNat v := by
  rw [putLe, if_pos (by omega), Nat.sub_self, pow_zero, Nat.div_one]
  apply UInt8.toNat_inj.1
  rw [UInt8.toNat_ofNat', UInt8.toNat_ofNat', Nat.mod_mod]

theorem recAt_putEntry (b : Buf) (q : ℕ) {inode rec_len : ℕ} (hinode : inode < 2 ^ 32)
    (hrec : rec_len < 2 ^ 16) (hname : name.length ≤ 255) (file_type : UInt8) :
    recAt (putEntry b q inode rec_len name file_type) q = ⟨inode, rec_len, name, file_type⟩ := by
  have hi : inodeAt (putEntry b q inode rec_len name file_type) q = inode := by
    have h := (getLe_putLe b q 4 inode).trans (Nat.mod_eq_of_lt hinode)
    refine Eq.trans (getLe_congr fun p hp hp' => ?_) h
    rw [putEntry, putBytes_of_ne (by omega), putLe_of_ne (by omega), putLe_of_ne (by omega),
      putLe_of_ne (by omega)]
  have hr : recLenAt (putEntry b q inode rec_len name file_type) q = rec_len := by
    have h := (getLe_putLe (putLe b q 4 inode) (q + 4) 2 rec_len).trans (Nat.mod_eq_of_lt hrec)
    refine Eq.trans (getLe_congr fun p hp hp' => ?_) h
    rw [putEntry, putBytes_of_ne (by omega), putLe_of_ne (by omega), putLe_of_ne (by omega)]
  have hl : nameLenAt (putEntry b q inode rec_len name file_type) q = name.length := by
    rw [nameLenAt, putEntry, putBytes_of_ne (by omega), putLe_of_ne (by omega), putLe_one,
      UInt8.toNat_ofNat', Nat.mod_eq_of_lt (by omega)]
  have ht : putEntry b q inode rec_len name file_type (q + 7) = file_type := by
    rw [putEntry, putBytes_of_ne (by omega), putLe_one, UInt8.ofNat_toNat]
  have hn : nameAt (putEntry b q inode rec_len name file_type) q = name := by
    apply List.ext_getElem
    · rw [nameAt_length, hl]
    · intro i hi hi'
      have hsub : q + 8 + i - (q + 8) = i := by omega
      simp only [nameAt, List.getElem_map, List.getElem_range]
      rw [putEntry, putBytes, if_pos (by omega), hsub, List.getD_eq_getElem?_getD,
        List.getElem?_eq_getElem hi', Option.getD_some]
  rw [recAt, hi, hr, hn, ht]

theorem recAt_put_rec_len (b : Buf) (q : ℕ) {v : ℕ} (hv : v < 2 ^ 16) :
    recAt (putLe b (q + 4) 2 v) q = { recAt b q with rec_len := v } := by
  have hlen : nameLenAt (putLe b (q + 4) 2 v) q = nameLenAt b q := by
    rw [nameLenAt, nameLenAt, putLe_of_ne (by omega)]
  have hinode : inodeAt (putLe b (q + 4) 2 v) q = inodeAt b q :=
    getLe_congr fun i hi hi' => putLe_of_ne (by omega)
  have hrec : recLenAt (putLe b (q + 4) 2 v) q = v :=
    (getLe_putLe b (q + 4) 2 v).trans (Nat.mod_eq_of_lt hv)
  have hname : nameAt (putLe b (q + 4) 2 v) q = nameAt b q := by
    rw [nameAt, nameAt, hlen]
    apply List.map_congr_left
    intro i _
    exact putLe_of_ne (by omega)
  rw [recAt, hinode, hrec, hname, putLe_of_ne (by omega), recAt]

theorem recAt_put_inode (b : Buf) (q : ℕ) :
    recAt (putLe b q 4 0) q = { recAt b q with inode := 0 } := by
  have hlen : nameLenAt (putLe b q 4 0) q = nameLenAt b q := by
    rw [nameLenAt, nameLenAt, putLe_of_ne (by omega)]
  have hinode : inodeAt (putLe b q 4 0) q = 0 := (getLe_putLe b q 4 0).trans (Nat.zero_mod _)
  have hrec : recLenAt (putLe b q 4 0) q = recLenAt b q :=
    getLe_congr fun i hi hi' => putLe_of_ne (by omega)
  have hname : nameAt (putLe b q 4 0) q = nameAt b q := by
    rw [nameAt, nameAt, hlen]
    apply List.map_congr_left
    intro i _
    exact putLe_of_ne (by omega)
  rw [recAt, hinode, hrec, hname, putLe_of_ne (by omega), recAt]

/-! ## Entries -/

def Rec.entry (r : Rec) : Name × ℕ × UInt8 := (r.name, r.inode, r.file_type)

theorem live_append (xs ys : List Rec) : live (xs ++ ys) = live xs ++ live ys := by
  rw [live, List.filter_append, List.map_append, live, live]

theorem live_cons (r : Rec) (rs : List Rec) :
    live (r :: rs) = if r.inode ≠ 0 then r.entry :: live rs else live rs := by
  by_cases h : r.inode = 0 <;> simp [live, h, Rec.entry]

theorem mem_live {e : Name × ℕ × UInt8} :
    e ∈ live rs ↔ ∃ r ∈ rs, r.inode ≠ 0 ∧ r.entry = e := by
  simp [live, Rec.entry, and_assoc]

theorem FillsBlock.short (h : FillsBlock fs b rs) {e : Name × ℕ × UInt8} (he : e ∈ live rs) :
    e.1.length ≤ 255 := by
  obtain ⟨r, hr, -, rfl⟩ := mem_live.1 he
  obtain ⟨q, rfl⟩ := Records.exists_of_mem h hr
  have hlt := nameLenAt_lt b q
  change (nameAt b q).length ≤ 255
  rw [nameAt_length]
  omega

/-- A walk ends at the first record that meets the test, and knows the record before it. -/
theorem walk_spec (h : FillsBlock fs b rs) {test : ℕ → Bool} {T : Rec → Bool}
    (hT : ∀ q, test q = T (recAt b q)) :
    (walk fs b test = none ∧ ∀ r ∈ rs, T r = false) ∨
    ∃ xs r ys m, rs = xs ++ r :: ys ∧ T r = true ∧
      Records recAt Rec.rec_len Rec.Good b 0 xs m ∧
      Records recAt Rec.rec_len Rec.Good b m (r :: ys) fs.block_size ∧
      ((xs = [] ∧ walk fs b test = some (none, m)) ∨
        ∃ ws w l, xs = ws ++ [w] ∧ Records recAt Rec.rec_len Rec.Good b 0 ws l ∧
          Records recAt Rec.rec_len Rec.Good b l [w] m ∧ walk fs b test = some (some l, m)) := by
  have hlen := Records.length_le local_recAt h
  apply scanRecords_spec local_recAt ?_ (fun _ => rfl) h (by omega) none
  intro q hq
  have hpos := local_recAt.pos _ hq
  have hne : recLenAt b q ≠ 0 := Nat.ne_of_gt hpos
  simp [hne, hT]

/-- A record that a walk ends at has a length. -/
theorem first_record {q e : ℕ} {r : Rec} {ys : List Rec}
    (h : Records recAt Rec.rec_len Rec.Good b q (r :: ys) e) :
    recAt b q = r ∧ r.Good ∧ recLenAt b q = r.rec_len ∧ recLenAt b q ≠ 0 := by
  obtain ⟨rfl, hok, -⟩ := h
  exact ⟨rfl, hok, rfl, Nat.ne_of_gt (local_recAt.pos _ hok)⟩

/-- The test of lookups and removals. -/
def Rec.hasName (name : Name) (r : Rec) : Bool := r.inode ≠ 0 && r.name = name

theorem isEntry_eq (b : Buf) (name : Name) (q : ℕ) :
    isEntry b name q = (recAt b q).hasName name := rfl

theorem notMem_live (h : ∀ r ∈ rs, r.hasName name = false) (v : ℕ × UInt8) :
    (name, v) ∉ live rs := by
  intro hv
  obtain ⟨r, hr, hne, he⟩ := mem_live.1 hv
  have hn : r.name = name := congrArg Prod.fst he
  have hf := h r hr
  simp [Rec.hasName, hne, hn] at hf

theorem findIn_spec (h : FillsBlock fs b rs) (name : Name) :
    (findIn fs b name = none ∧ ∀ v, (name, v) ∉ live rs) ∨
      ∃ inode file_type, findIn fs b name = some inode ∧ (name, inode, file_type) ∈ live rs := by
  rcases walk_spec h (isEntry_eq b name) with
    ⟨hw, hnone⟩ | ⟨xs, r, ys, m, rfl, hr, hx, hy, hw⟩
  · left
    refine ⟨?_, notMem_live hnone⟩
    rw [findIn, hw, Option.map_none]
  · right
    obtain ⟨hat, hok, hlen, hne⟩ := first_record hy
    simp only [Rec.hasName, ne_eq, decide_not, Bool.and_eq_true, Bool.not_eq_true',
      decide_eq_false_iff_not, decide_eq_true_eq] at hr
    have hinode : inodeAt b m = r.inode := congrArg Rec.inode hat
    refine ⟨r.inode, r.file_type, ?_, mem_live.2 ⟨r, by simp, hr.1, by rw [Rec.entry, hr.2]⟩⟩
    rcases hw with ⟨-, hw⟩ | ⟨ws, w, l, -, -, -, hw⟩ <;>
      rw [findIn, hw, Option.map_some, if_neg hne, hinode]

/-- The record that is split has the room. -/
theorem roomIn_spec (h : FillsBlock fs b rs) {required_rec_len q : ℕ}
    (hq : roomIn fs b required_rec_len = some q) :
    ∃ xs r ys, rs = xs ++ r :: ys ∧
      EXT2_DIR_REC_LEN r.name.length + required_rec_len ≤ r.rec_len ∧
      Records recAt Rec.rec_len Rec.Good b 0 xs q ∧
      Records recAt Rec.rec_len Rec.Good b q (r :: ys) fs.block_size := by
  let T : Rec → Bool := fun r => EXT2_DIR_REC_LEN r.name.length + required_rec_len ≤ r.rec_len
  have hT : ∀ q, decide (EXT2_DIR_REC_LEN (nameLenAt b q) + required_rec_len ≤ recLenAt b q) =
      T (recAt b q) := fun q => by simp only [T, recAt, nameAt_length]
  rcases walk_spec h hT with
    ⟨hw, -⟩ | ⟨xs, r, ys, m, rfl, hr, hx, hy, hw⟩
  · rw [roomIn, hw] at hq
    cases hq
  · obtain ⟨-, -, -, hne⟩ := first_record hy
    have hm : m = q := by
      rcases hw with ⟨-, hw⟩ | ⟨ws, w, l, -, -, -, hw⟩ <;>
      · rw [roomIn, hw, Option.bind_some, if_neg hne] at hq
        exact Option.some.inj hq
    exact ⟨xs, r, ys, rfl, of_decide_eq_true hr, hm ▸ hx, hm ▸ hy⟩

/-! ## Changes -/

/-- A record that is split: the first part keeps its entry, the second has the new one. -/
theorem split_spec {xs ys : List Rec} {r : Rec} {q inode : ℕ}
    (hx : Records recAt Rec.rec_len Rec.Good b 0 xs q)
    (hy : Records recAt Rec.rec_len Rec.Good b q (r :: ys) fs.block_size)
    (hroom : EXT2_DIR_REC_LEN r.name.length + EXT2_DIR_REC_LEN name.length ≤ r.rec_len)
    (hinode : inode < 2 ^ 32) (hname : name.length ≤ 255) (file_type : UInt8) :
    let actual := EXT2_DIR_REC_LEN (nameLenAt b q)
    FillsBlock fs
      (putEntry (putLe b (q + 4) 2 actual) (q + actual) inode (recLenAt b q - actual) name
        file_type)
      (xs ++ ([{ r with rec_len := actual }, ⟨inode, r.rec_len - actual, name, file_type⟩] ++
        ys)) := by
  intro actual
  obtain ⟨hat, hok, hlen, -⟩ := first_record hy
  obtain ⟨-, hbs, -, -⟩ := fs.block_size_spec
  have hys := hy.2.2
  have hle := hys.le
  have hl : r.name.length = nameLenAt b q := by
    rw [← hat, recAt, nameAt_length]
  have hactual : EXT2_DIR_REC_LEN r.name.length = actual := congrArg EXT2_DIR_REC_LEN hl
  have hself := le_EXT2_DIR_REC_LEN (nameLenAt b q)
  have hself' := le_EXT2_DIR_REC_LEN name.length
  have hlt := EXT2_DIR_REC_LEN_le (nameLenAt b q)
  have hlt' := nameLenAt_lt b q
  rw [hactual] at hroom
  rw [hlen]
  have hgood : EXT2_DIR_REC_LEN r.name.length ≤ actual ∧ 4 ∣ actual :=
    ⟨hactual.le, four_dvd_EXT2_DIR_REC_LEN _⟩
  refine Records.replace local_recAt hx hys ⟨?_, ⟨hgood.1, hgood.2⟩, ?_, ?_, ?_⟩ ?_
  · -- the first part is not touched by the new entry
    rw [recAt_congr (b := putLe b (q + 4) 2 actual), recAt_put_rec_len b q (by omega), hat]
    intro i hi hi'
    rw [nameLenAt, putLe_of_ne (by omega), ← nameLenAt] at hi'
    exact (putEntry_of_ne (by omega)).symm
  · exact recAt_putEntry _ _ hinode (by omega) hname file_type
  · refine ⟨?_, Nat.dvd_sub hok.aligned (four_dvd_EXT2_DIR_REC_LEN _)⟩
    change EXT2_DIR_REC_LEN name.length ≤ r.rec_len - actual
    omega
  · change q + actual + (r.rec_len - actual) = q + r.rec_len
    omega
  · intro i hi
    rw [putEntry_of_ne (by omega), putLe_of_ne (by omega)]

theorem removeIn_spec (h : FillsBlock fs b rs) (name : Name) :
    (removeIn fs b name = none ∧ ∀ v, (name, v) ∉ live rs) ∨
      ∃ c rs' xs v ys, removeIn fs b name = some c ∧ FillsBlock fs c rs' ∧
        live rs = xs ++ (name, v) :: ys ∧ live rs' = xs ++ ys := by
  rcases walk_spec h (isEntry_eq b name) with
    ⟨hw, hnone⟩ | ⟨xs, r, ys, m, rfl, hr, hx, hy, hw⟩
  · left
    refine ⟨?_, notMem_live hnone⟩
    rw [removeIn, hw, Option.bind_none]
  · right
    obtain ⟨hat, hok, hlen, hne⟩ := first_record hy
    have hys := hy.2.2
    simp only [Rec.hasName, ne_eq, decide_not, Bool.and_eq_true, Bool.not_eq_true',
      decide_eq_false_iff_not, decide_eq_true_eq] at hr
    have hentry : r.entry = (name, r.inode, r.file_type) := by
      rw [Rec.entry, hr.2]
    have hlive : live (r :: ys) = (name, r.inode, r.file_type) :: live ys := by
      rw [live_cons, if_pos hr.1, hentry]
    rcases hw with ⟨rfl, hw⟩ | ⟨ws, w, l, rfl, hws, hwl, hw⟩
    · -- the first record of a block stays, without an inode
      have hm : 0 = m := hx
      subst hm
      refine ⟨putLe b 0 4 0, { r with inode := 0 } :: ys, [], (r.inode, r.file_type), live ys,
        ?_, ⟨?_, ⟨hok.room, hok.aligned⟩, ?_⟩, ?_, ?_⟩
      · rw [removeIn, hw, Option.bind_some, if_neg hne]
      · rw [recAt_put_inode, hat]
      · have hle := hok.le
        apply hys.congr local_recAt
        intro i hi _
        have hi' : 0 + r.rec_len ≤ i := hi
        exact (putLe_of_ne (by omega)).symm
      · exact hlive
      · rw [live_cons, if_neg (not_not.2 rfl), List.nil_append]
    · -- the record before it takes its place
      obtain ⟨hwat, hwok, hwlen, -⟩ := first_record hwl
      have hm : l + w.rec_len = m := hwl.2.2
      have hle := hys.le
      have hwle := hwok.le
      obtain ⟨-, hbs, -, -⟩ := fs.block_size_spec
      let w' : Rec := { w with rec_len := w.rec_len + r.rec_len }
      have hw' : live (w' :: ys) = live [w] ++ live ys := by
        rw [live_cons, live_cons]
        by_cases hi : w.inode = 0
        · rw [if_neg (not_not.2 hi), if_neg (not_not.2 hi)]
          rfl
        · rw [if_pos hi, if_pos hi]
          rfl
      refine ⟨putLe b (l + 4) 2 (w.rec_len + r.rec_len), ws ++ ([w'] ++ ys), live ws ++ live [w],
        (r.inode, r.file_type), live ys, ?_, ?_, ?_, ?_⟩
      · rw [removeIn, hw, Option.bind_some, if_neg hne]
        exact congrArg₂ (fun x y => some (putLe b (l + 4) 2 (x + y))) hwlen hlen
      · refine Records.replace local_recAt hws hys ⟨?_, ⟨?_, ?_⟩, ?_⟩ ?_
        · rw [recAt_put_rec_len b l (by omega), hwat]
        · exact hwok.room.trans (Nat.le_add_right _ _)
        · exact Nat.dvd_add hwok.aligned hok.aligned
        · change l + (w.rec_len + r.rec_len) = m + r.rec_len
          omega
        · intro i hi
          exact putLe_of_ne (by omega)
      · rw [live_append, live_append, hlive, List.append_assoc]
      · rw [live_append, List.singleton_append, hw', List.append_assoc]

end Xeneva.Ext2
