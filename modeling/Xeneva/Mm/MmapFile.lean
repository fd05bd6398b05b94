import Xeneva.Mm.Mmap

/-!
# Where a mapping holds the file

An entry of the cache holds the block of the file that its index names, as long as every
block is read in its turn: the node stands at the block that the cache gets next, and no page
of a mapping but the first is in the file.
-/

namespace Xeneva.Mmap
open Base Fat

variable {fs : FatFS} {d : Disk} {s : State} {c : Call} {r r' : Loop} {n f j : ℕ}
  {file file' : AuVFSNode}

/-! ## Files -/

def SameFile (file file' : AuVFSNode) : Prop :=
  file.first_block = file'.first_block ∧ file.size = file'.size

theorem SameFile.hasByte (h : SameFile file file') {x : ℕ} {b : UInt8} :
    HasByte fs d file x b ↔ HasByte fs d file' x b := by
  unfold HasByte
  rw [h.1, h.2]

/-- The file has a byte in its page `j`. -/
def InFile (fs : FatFS) (d : Disk) (file : AuVFSNode) (j : ℕ) : Prop :=
  ∃ x b, x / PAGE_SIZE = j ∧ HasByte fs d file x b

theorem SameFile.inFile (h : SameFile file file') : InFile fs d file j ↔ InFile fs d file' j := by
  unfold InFile
  simp only [h.hasByte]

/-- The frame holds the file's page `j`. -/
def Holds (fs : FatFS) (d : Disk) (mem : ℕ → UInt8) (file : AuVFSNode) (frame j : ℕ) : Prop :=
  ∀ a < PAGE_SIZE, ∀ b, HasByte fs d file (j * PAGE_SIZE + a) b → mem (frame + a) = b

/-- The node is at block `j`, if the file has one; a copy is only read before the end. -/
def Stands (fs : FatFS) (d : Disk) (c : Call) (file : AuVFSNode) (j : ℕ) : Prop :=
  InFile fs d file j →
    file.current = Fat.walk fs d j file.first_block ∧ (c.cow → file.eof = false)

theorem not_isEoc_of_lt {k : ℕ} (h : k < FAT_BAD_CLUSTER % 2 ^ 28) : isEoc k = false := by
  unfold isEoc FAT_EOC_MARK
  unfold FAT_BAD_CLUSTER at h
  simp only [decide_eq_false_iff_not]
  omega

section Blocks

variable (hfs : fs.cluster_sz_in_bytes = PAGE_SIZE)
include hfs

theorem InFile.clusters (h : InFile fs d file j) :
    ∀ m ≤ j, Fat.walk fs d m file.first_block < FAT_BAD_CLUSTER % 2 ^ 28 := by
  obtain ⟨x, b, rfl, -, hc, -⟩ := h
  rwa [hfs] at hc

theorem InFile.pred (h : InFile fs d file (j + 1)) : InFile fs d file j := by
  have hc := h.clusters hfs
  obtain ⟨x, b, hx, hsize, -⟩ := h
  refine ⟨j * PAGE_SIZE, _, ?_, ?_, ?_, rfl⟩
  · exact Nat.mul_div_cancel j (by decide)
  · unfold PAGE_SIZE at hx ⊢
    omega
  · rw [hfs, Nat.mul_div_cancel j (by decide)]
    exact fun m hm => hc m (by omega)

/-- What a read of the block at hand leaves in the buffer and in the node. -/
theorem fatRead_stands (h : InFile fs d file j)
    (hat : file.current = Fat.walk fs d j file.first_block) (buf : ℕ → UInt8) :
    (∀ a < PAGE_SIZE, ∀ b, HasByte fs d file (j * PAGE_SIZE + a) b →
      (fatRead fs d file buf).1 a = b) ∧
    (InFile fs d file (j + 1) →
      (fatRead fs d file buf).2.current = Fat.walk fs d (j + 1) file.first_block ∧
      (fatRead fs d file buf).2.eof = file.eof) := by
  have hc := h.clusters hfs j le_rfl
  unfold fatRead
  rw [hat, not_isEoc_of_lt hc, if_neg Bool.false_ne_true]
  dsimp only
  constructor
  · rintro a ha b ⟨-, -, hb⟩
    rw [hfs, Nat.mul_comm, Nat.mul_add_div (by decide), Nat.mul_add_mod,
      Nat.div_eq_of_lt ha, Nat.mod_eq_of_lt ha, Nat.add_zero] at hb
    unfold auVDiskRead
    rw [if_pos (by rw [← hfs] at ha; exact ha), hb]
  · intro h'
    have hnext : fatReadFAT fs d (Fat.walk fs d j file.first_block) =
        Fat.walk fs d (j + 1) file.first_block := by
      unfold Fat.walk
      rw [Function.iterate_succ_apply']
    have hlt := h'.clusters hfs (j + 1) le_rfl
    refine ⟨hnext, ?_⟩
    have hlast : ¬ (Fat.walk fs d (j + 1) file.first_block ≥ FAT_EOC_MARK % 2 ^ 28 ∨
        Fat.walk fs d (j + 1) file.first_block ≥ FAT_BAD_CLUSTER % 2 ^ 28) := by
      unfold FAT_EOC_MARK
      unfold FAT_BAD_CLUSTER at hlt ⊢
      omega
    rw [hnext]
    simp only [hlast, false_or, Bool.decide_eq_true]

end Blocks

theorem sameFile_moved (file : AuVFSNode) (current : ℕ) (eof : Bool) :
    SameFile { file with current, eof } file := ⟨rfl, rfl⟩

theorem fatRead_sameFile (buf : ℕ → UInt8) : SameFile (fatRead fs d file buf).2 file := by
  unfold fatRead
  split_ifs
  · exact ⟨rfl, rfl⟩
  · exact sameFile_moved file _ _

/-- Behind its block a read leaves the memory. -/
theorem fatRead_behind (hfs : fs.cluster_sz_in_bytes = PAGE_SIZE) (buf : ℕ → UInt8) {a : ℕ}
    (ha : PAGE_SIZE ≤ a) : (fatRead fs d file buf).1 a = buf a := by
  unfold fatRead
  split_ifs
  · rfl
  · dsimp only
    unfold auVDiskRead
    rw [if_neg]
    rw [← hfs] at ha
    unfold FatFS.cluster_sz_in_bytes at ha
    omega

variable {q a buf dst src : ℕ}

theorem readBlock_mem (hfs : fs.cluster_sz_in_bytes = PAGE_SIZE) (hq : q % PAGE_SIZE = 0)
    (hb : buf % PAGE_SIZE = 0) (hne : buf ≠ q) (ha : a < PAGE_SIZE) :
    (readBlock fs d s n buf).mem (q + a) = s.mem (q + a) := by
  unfold readBlock
  dsimp only
  split_ifs with hle
  · have hbehind : PAGE_SIZE ≤ q + a - buf := by
      unfold PAGE_SIZE at hq hb ha ⊢
      omega
    rw [fatRead_behind hfs _ hbehind, Nat.add_sub_cancel' hle]
  · rfl

theorem readBlock_nodes (fs : FatFS) (d : Disk) (s : State) (n buf m : ℕ) :
    SameFile ((readBlock fs d s n buf).nodes m).node (s.nodes m).node := by
  unfold readBlock
  dsimp only
  by_cases hm : m = n
  · rw [hm, Function.update_self]
    exact fatRead_sameFile _
  · rw [Function.update_of_ne hm]
    exact ⟨rfl, rfl⟩

theorem copyPage_mem (hq : q % PAGE_SIZE = 0) (hd : dst % PAGE_SIZE = 0) (hne : dst ≠ q)
    (ha : a < PAGE_SIZE) : (copyPage s dst src).mem (q + a) = s.mem (q + a) := by
  unfold copyPage
  dsimp only
  rw [if_neg]
  unfold PAGE_SIZE at hq hd ha ⊢
  omega

theorem copyPage_self (ha : a < PAGE_SIZE) :
    (copyPage s dst src).mem (dst + a) = s.mem (src + a) := by
  unfold copyPage
  dsimp only
  rw [if_pos (by omega), Nat.add_sub_cancel_left]

/-- A frame that the loop no longer writes. -/
def Settled (c : Call) (r : Loop) (q : ℕ) : Prop :=
  q % PAGE_SIZE = 0 ∧ ∀ k, r.used ≤ k → c.frames k ≠ q

theorem Settled.later (h : Settled c r q) (hu : r.used ≤ r'.used) : Settled c r' q :=
  ⟨h.1, fun k hk => h.2 k (hu.trans hk)⟩

/-- What part of the loop leaves as it was. -/
structure Leaves (c : Call) (f : ℕ) (r r' : Loop) : Prop where
  used : r.used ≤ r'.used
  mem : ∀ q, Settled c r q → ∀ a < PAGE_SIZE, r'.st.mem (q + a) = r.st.mem (q + a)
  nodes : ∀ m, SameFile (r'.st.nodes m).node (r.st.nodes m).node
  backs : r'.st.fileBacks = r.st.fileBacks
  next : r'.st.nextFileBack = r.st.nextFileBack
  file : ∀ g, (r'.st.fileBack g).file = (r.st.fileBack g).file
  caches : ∀ g, g ≠ f → (r'.st.fileBack g).pageCache = (r.st.fileBack g).pageCache

theorem Leaves.refl (c : Call) (f : ℕ) (r : Loop) : Leaves c f r r :=
  ⟨le_rfl, fun _ _ _ _ => rfl, fun _ => ⟨rfl, rfl⟩, rfl, rfl, fun _ => rfl, fun _ _ => rfl⟩

theorem Leaves.trans {r'' : Loop} (h : Leaves c f r r') (h' : Leaves c f r' r'') :
    Leaves c f r r'' where
  used := h.used.trans h'.used
  mem q hq a ha := (h'.mem q (hq.later h.used) a ha).trans (h.mem q hq a ha)
  nodes m := ⟨(h'.nodes m).1.trans (h.nodes m).1, (h'.nodes m).2.trans (h.nodes m).2⟩
  backs := h'.backs.trans h.backs
  next := h'.next.trans h.next
  file g := (h'.file g).trans (h.file g)
  caches g hg := (h'.caches g hg).trans (h.caches g hg)

/-- The entry is a page of the file. -/
structure EntryOk (fs : FatFS) (d : Disk) (mem : ℕ → UInt8) (file : AuVFSNode)
    (e : AuMMPageCache) : Prop where
  aligned : e.physicalPage % PAGE_SIZE = 0
  holds : Holds fs d mem file e.physicalPage e.pageIndex

def fileOf (s : State) (g : ℕ) : AuVFSNode := (s.nodes (s.fileBack g).file).node

/-- The cache is right, and its frames are no longer written. -/
structure LoopInv (fs : FatFS) (d : Disk) (c : Call) (n f : ℕ) (r : Loop) : Prop where
  entries : ∀ g, g ∈ r.st.fileBacks ∨ g = f → ∀ e ∈ (r.st.fileBack g).pageCache,
    Settled c r e.physicalPage ∧ EntryOk fs d r.st.mem (fileOf r.st g) e
  same : SameFile (fileOf r.st f) (r.st.nodes n).node

/-- The page that the cache is asked for. -/
def Call.index (c : Call) : ℕ := c.offset % 2 ^ 32 / PAGE_SIZE

theorem getBlock_some {blk : ℕ} (h : fileCacheGetPhysicalBlock s f c.offset = some blk) :
    ∃ e ∈ (s.fileBack f).pageCache, e.pageIndex = c.index ∧ e.physicalPage = blk := by
  obtain ⟨e, he, hp⟩ := Option.map_eq_some_iff.mp h
  have hi := List.find?_some he
  exact ⟨e, List.mem_of_find?_eq_some he, of_decide_eq_true hi, hp⟩

theorem getBlock_congr {s' : State} (h : (s'.fileBack f).pageCache = (s.fileBack f).pageCache)
    (x : ℕ) : fileCacheGetPhysicalBlock s' f x = fileCacheGetPhysicalBlock s f x := by
  unfold fileCacheGetPhysicalBlock
  rw [h]

theorem EntryOk.leaves {e : AuMMPageCache} {g : ℕ} (h : EntryOk fs d r.st.mem (fileOf r.st g) e)
    (hset : Settled c r e.physicalPage) (hl : Leaves c f r r') :
    EntryOk fs d r'.st.mem (fileOf r'.st g) e where
  aligned := h.aligned
  holds a ha b hb := by
    rw [hl.mem _ hset a ha]
    apply h.holds a ha b
    rw [fileOf, hl.file g] at hb
    exact (hl.nodes _).hasByte.mp hb

/-! ## One page -/

/-- The frames that a call is given are pages of their own. -/
structure Frames (c : Call) : Prop where
  aligned : ∀ k, c.frames k % PAGE_SIZE = 0
  distinct : ∀ k l, c.frames k = c.frames l → k = l

theorem Frames.settled (h : Frames c) {k : ℕ} (hk : k < r.used) : Settled c r (c.frames k) := by
  refine ⟨h.aligned k, fun l hl he => ?_⟩
  have := h.distinct l k he
  omega

variable {phys datablk : ℕ}

theorem readBlock_holds (buf : ℕ) (hfs : fs.cluster_sz_in_bytes = PAGE_SIZE)
    (hj : InFile fs d (s.nodes n).node j →
      (s.nodes n).node.current = Fat.walk fs d j (s.nodes n).node.first_block) :
    Holds fs d (readBlock fs d s n buf).mem (s.nodes n).node buf j := by
  intro a ha b hb
  have hin : InFile fs d (s.nodes n).node j := by
    refine ⟨_, b, ?_, hb⟩
    unfold PAGE_SIZE at ha ⊢
    omega
  unfold readBlock
  dsimp only
  rw [if_pos (Nat.le_add_right buf a), Nat.add_sub_cancel_left]
  exact (fatRead_stands hfs hin (hj hin) _).1 a ha b hb

theorem readBlock_next (hfs : fs.cluster_sz_in_bytes = PAGE_SIZE)
    (hj : Stands fs d c (s.nodes n).node j) :
    Stands fs d c ((readBlock fs d s n buf).nodes n).node (j + 1) := by
  intro hin
  have hsame := readBlock_nodes fs d s n buf n
  rw [hsame.inFile] at hin
  have hin' := hin.pred hfs
  obtain ⟨hcur, heof⟩ := (fatRead_stands hfs hin' (hj hin').1 fun k => s.mem (buf + k)).2 hin
  unfold readBlock
  dsimp only
  rw [Function.update_self]
  refine ⟨?_, fun hc => heof.trans ((hj hin').2 hc)⟩
  rw [hcur, (fatRead_sameFile _).1]

theorem fillPage_nodes (fs : FatFS) (d : Disk) (c : Call) (s : State) (n phys datablk m : ℕ) :
    SameFile ((fillPage fs d c s n phys datablk).nodes m).node (s.nodes m).node := by
  unfold fillPage
  split_ifs
  · exact ⟨rfl, rfl⟩
  · exact readBlock_nodes fs d s n datablk m
  · exact readBlock_nodes fs d s n datablk m

theorem fillPage_backs (fs : FatFS) (d : Disk) (c : Call) (s : State) (n phys datablk : ℕ) :
    (fillPage fs d c s n phys datablk).fileBack = s.fileBack ∧
      (fillPage fs d c s n phys datablk).fileBacks = s.fileBacks ∧
      (fillPage fs d c s n phys datablk).nextFileBack = s.nextFileBack := by
  unfold fillPage
  split_ifs <;> exact ⟨rfl, rfl, rfl⟩

theorem fillPage_mem (hfs : fs.cluster_sz_in_bytes = PAGE_SIZE) (hq : q % PAGE_SIZE = 0)
    (hp : phys % PAGE_SIZE = 0) (hd : datablk % PAGE_SIZE = 0) (hpq : phys ≠ q)
    (hdq : datablk ≠ q) (ha : a < PAGE_SIZE) :
    (fillPage fs d c s n phys datablk).mem (q + a) = s.mem (q + a) := by
  unfold fillPage
  split_ifs
  · exact copyPage_mem hq hp hpq ha
  · rw [copyPage_mem hq hp hpq ha, readBlock_mem hfs hq hd hdq ha]
  · exact readBlock_mem hfs hq hd hdq ha

/-- Both frames hold the block that the node stood at. -/
theorem fillPage_holds (hfs : fs.cluster_sz_in_bytes = PAGE_SIZE) (hp : phys % PAGE_SIZE = 0)
    (hd : datablk % PAGE_SIZE = 0) (hcow : c.cow → phys ≠ datablk) (hdir : c.cow = false →
      phys = datablk) (hj : Stands fs d c (s.nodes n).node j) :
    Holds fs d (fillPage fs d c s n phys datablk).mem (s.nodes n).node phys j ∧
      Holds fs d (fillPage fs d c s n phys datablk).mem (s.nodes n).node datablk j := by
  have hread := readBlock_holds datablk hfs fun hin => (hj hin).1
  unfold fillPage
  by_cases hc : c.cow = true
  · rw [if_pos hc]
    have hno : (s.nodes n).node.eof = true → ∀ a < PAGE_SIZE, ∀ b,
        ¬ HasByte fs d (s.nodes n).node (j * PAGE_SIZE + a) b := by
      intro heof a ha b hb
      have hin : InFile fs d (s.nodes n).node j := by
        refine ⟨_, b, ?_, hb⟩
        unfold PAGE_SIZE at ha ⊢
        omega
      rw [(hj hin).2 hc] at heof
      exact Bool.false_ne_true heof
    split_ifs with heof
    · exact ⟨fun a ha b hb => absurd hb (hno heof a ha b),
        fun a ha b hb => absurd hb (hno heof a ha b)⟩
    · constructor
      · intro a ha b hb
        rw [copyPage_self ha]
        exact hread a ha b hb
      · intro a ha b hb
        rw [copyPage_mem hd hp (hcow hc) ha]
        exact hread a ha b hb
  · rw [if_neg hc, hdir (Bool.not_eq_true _ ▸ hc)]
    exact ⟨hread, hread⟩

theorem fillPage_next (phys datablk : ℕ) (hfs : fs.cluster_sz_in_bytes = PAGE_SIZE)
    (hj : Stands fs d c (s.nodes n).node j) :
    Stands fs d c ((fillPage fs d c s n phys datablk).nodes n).node (j + 1) := by
  unfold fillPage
  split_ifs with hc heof
  · intro hin
    have hin' := InFile.pred hfs hin
    have hno := (hj hin').2 hc
    exact absurd (hno.symm.trans heof) Bool.false_ne_true
  · exact readBlock_next hfs hj
  · exact readBlock_next hfs hj

/-! ## One turn -/

variable {blk i u : ℕ} {made : Bool}

/-- The page's frame, and the loop when the cache has been asked and filled. -/
def fetchPage (fs : FatFS) (d : Disk) (c : Call) (n f : ℕ) (made : Bool) (i : ℕ) (r : Loop) :
    ℕ × Loop :=
  let (phys, r) := pickPage c (some f) i r
  let r := if r.start = 0 ∧ made then { r with start := phys } else r
  (phys, readPage fs d c n f phys r)

theorem mapTurn_eq (fs : FatFS) (d : Disk) (c : Call) (p addr n f : ℕ) (made : Bool) (i : ℕ)
    (r : Loop) : mapTurn fs d c p addr (some (n, f)) made i r =
      let x := fetchPage fs d c n f made i r
      let virt := (addr + i * PAGE_SIZE) % 2 ^ 64
      { x.2 with st := auMapPage (markComplete x.2.st n f) p x.1 virt } := rfl

theorem readPage_cached (h : fileCacheGetPhysicalBlock r.st f c.offset = some blk) :
    readPage fs d c n f phys r = r := by
  unfold readPage
  rw [h]

/-- What a turn does that finds its page in the cache. -/
structure Found (c : Call) (f blk i : ℕ) (made : Bool) (r : Loop) (x : ℕ × Loop) : Prop where
  leaves : Leaves c f r x.2
  backs : x.2.st.fileBack = r.st.fileBack
  nodes : x.2.st.nodes = r.st.nodes
  procs : x.2.st.procs = r.st.procs
  frame : (r.start = 0 ∨ c.shared = false) ∨ i = 0 ∧ r.start = blk ∧ blk < 2 ^ 64 →
    Settled c x.2 x.1 ∧
    ∀ a < PAGE_SIZE, x.2.st.mem (x.1 + a) = r.st.mem (blk + a)

theorem leaves_start (c : Call) (f : ℕ) (r : Loop) (start : ℕ) :
    Leaves c f r { r with start } :=
  ⟨le_rfl, fun _ _ _ _ => rfl, fun _ => ⟨rfl, rfl⟩, rfl, rfl, fun _ => rfl, fun _ _ => rfl⟩

theorem fetchPage_found (hfr : Frames c) (h : fileCacheGetPhysicalBlock r.st f c.offset = some blk)
    (hblk : Settled c r blk) :
    Found c f blk i made r (fetchPage fs d c n f made i r) := by
  unfold fetchPage pickPage
  by_cases hs : r.start ≠ 0 ∧ c.shared = true
  · rw [if_pos hs]
    dsimp only
    rw [if_neg fun h0 => hs.1 h0.1, readPage_cached h]
    refine ⟨.refl c f r, rfl, rfl, rfl, fun hf => ?_⟩
    rcases hf with (h0 | h0) | ⟨rfl, rfl, hlt⟩
    · exact absurd h0 hs.1
    · exact absurd (h0.symm.trans hs.2) Bool.false_ne_true
    · rw [Nat.zero_mul, Nat.add_zero, Nat.mod_eq_of_lt hlt]
      exact ⟨hblk, fun _ _ => rfl⟩
  · rw [if_neg hs, Option.bind_some, h]
    dsimp only
    by_cases hc : c.cow = true
    · rw [if_pos hc]
      dsimp only
      have hleaves : Leaves c f r
          ⟨copyPage r.st (c.frames r.used) blk, r.start, r.used + 1⟩ :=
        ⟨Nat.le_succ _, fun q hq a ha => copyPage_mem hq.1 (hfr.aligned _) (hq.2 _ le_rfl) ha,
          fun _ => ⟨rfl, rfl⟩, rfl, rfl, fun _ => rfl, fun _ _ => rfl⟩
      split_ifs with hm
      · rw [readPage_cached (by exact h)]
        refine ⟨hleaves.trans (leaves_start c f _ _), rfl, rfl, rfl, fun _ => ?_⟩
        exact ⟨hfr.settled (Nat.lt_succ_self _), fun a ha => copyPage_self ha⟩
      · rw [readPage_cached (by exact h)]
        refine ⟨hleaves, rfl, rfl, rfl, fun _ => ?_⟩
        exact ⟨hfr.settled (Nat.lt_succ_self _), fun a ha => copyPage_self ha⟩
    · rw [if_neg hc]
      dsimp only
      split_ifs with hm
      · rw [readPage_cached (by exact h)]
        exact ⟨leaves_start c f r _, rfl, rfl, rfl, fun _ => ⟨hblk, fun _ _ => rfl⟩⟩
      · rw [readPage_cached h]
        exact ⟨.refl c f r, rfl, rfl, rfl, fun _ => ⟨hblk, fun _ _ => rfl⟩⟩

theorem addPageCache_self (s : State) (f : ℕ) (e : AuMMPageCache) :
    ((addPageCache s f e).fileBack f).pageCache = (s.fileBack f).pageCache ++ [e] ∧
      ((addPageCache s f e).fileBack f).numPageIndex =
        ((s.fileBack f).numPageIndex + 1) % 2 ^ 32 := by
  unfold addPageCache setFileBack
  dsimp only
  rw [Function.update_self]
  exact ⟨rfl, rfl⟩

theorem addPageCache_ne (s : State) (e : AuMMPageCache) {g : ℕ} (hg : g ≠ f) :
    (addPageCache s f e).fileBack g = s.fileBack g := by
  unfold addPageCache setFileBack
  dsimp only
  rw [Function.update_of_ne hg]

theorem addPageCache_file (s : State) (e : AuMMPageCache) (g : ℕ) :
    ((addPageCache s f e).fileBack g).file = (s.fileBack g).file := by
  by_cases hg : g = f
  · rw [hg]
    unfold addPageCache setFileBack
    dsimp only
    rw [Function.update_self]
  · rw [addPageCache_ne s e hg]

/-- What a turn does that reads its page. -/
structure Read (fs : FatFS) (d : Disk) (c : Call) (n f : ℕ) (r : Loop) (x : ℕ × Loop) : Prop where
  leaves : Leaves c f r x.2
  procs : x.2.st.procs = r.st.procs
  settled : Settled c x.2 x.1
  holds : ∀ j, Stands fs d c (r.st.nodes n).node j →
    Holds fs d x.2.st.mem (r.st.nodes n).node x.1 j
  entry : ∃ e, (x.2.st.fileBack f).pageCache = (r.st.fileBack f).pageCache ++ [e] ∧
    e.pageIndex = (r.st.fileBack f).numPageIndex ∧ Settled c x.2 e.physicalPage ∧
    ∀ j, Stands fs d c (r.st.nodes n).node j →
      Holds fs d x.2.st.mem (r.st.nodes n).node e.physicalPage j
  index : (x.2.st.fileBack f).numPageIndex = ((r.st.fileBack f).numPageIndex + 1) % 2 ^ 32
  next : ∀ j, Stands fs d c (r.st.nodes n).node j →
    Stands fs d c (x.2.st.nodes n).node (j + 1)

theorem readPage_read (hfs : fs.cluster_sz_in_bytes = PAGE_SIZE) (hfr : Frames c)
    (h : fileCacheGetPhysicalBlock r.st f c.offset = none) (start : ℕ) :
    Read fs d c n f r (c.frames r.used,
      readPage fs d c n f (c.frames r.used) ⟨r.st, start, r.used + 1⟩) := by
  unfold readPage
  dsimp only
  rw [h]
  dsimp only
  generalize hd : (if c.cow then c.frames (r.used + 1) else c.frames r.used) = datablk
  generalize hu : (if c.cow then r.used + 1 + 1 else r.used + 1) = u
  have hle : r.used + 1 ≤ u := by
    rw [← hu]
    split_ifs <;> omega
  -- the frame in the cache is handed out in this turn, too
  have hframe : ∃ k, r.used ≤ k ∧ k < u ∧ datablk = c.frames k := by
    rw [← hd, ← hu]
    split_ifs
    · exact ⟨r.used + 1, by omega, by omega, rfl⟩
    · exact ⟨r.used, le_rfl, by omega, rfl⟩
  obtain ⟨k, hk, hku, hdk⟩ := hframe
  have hal := hfr.aligned r.used
  have hald : datablk % PAGE_SIZE = 0 := by
    rw [hdk]
    exact hfr.aligned k
  have hcow : c.cow = true → c.frames r.used ≠ datablk := by
    intro hc he
    rw [← hd, if_pos hc] at he
    have := hfr.distinct _ _ he
    omega
  have hdir : c.cow = false → c.frames r.used = datablk := by
    intro hc
    rw [← hd, if_neg (by rw [hc]; exact Bool.false_ne_true)]
  obtain ⟨hb, hbs, hnx⟩ := fillPage_backs fs d c r.st n (c.frames r.used) datablk
  have hset : ∀ l < u, ∀ t : Loop, t.used = u → Settled c t (c.frames l) := fun l hl t ht =>
    hfr.settled (by omega)
  have hholds := fun j (hj : Stands fs d c (r.st.nodes n).node j) =>
    fillPage_holds hfs hal hald hcow hdir hj
  have hmem : ∀ q, Settled c r q → ∀ a < PAGE_SIZE,
      (fillPage fs d c r.st n (c.frames r.used) datablk).mem (q + a) = r.st.mem (q + a) :=
    fun q hq a ha => fillPage_mem hfs hq.1 hal hald (hq.2 _ le_rfl) (hdk ▸ hq.2 k hk) ha
  have hnode := fillPage_nodes fs d c r.st n (c.frames r.used) datablk
  have hprocs : (fillPage fs d c r.st n (c.frames r.used) datablk).procs = r.st.procs := by
    unfold fillPage readBlock copyPage
    split_ifs <;> rfl
  have hnext := fun j (hj : Stands fs d c (r.st.nodes n).node j) =>
    fillPage_next (c.frames r.used) datablk hfs hj
  generalize fillPage fs d c r.st n (c.frames r.used) datablk = s at *
  constructor
  · refine ⟨Nat.le_of_succ_le hle, hmem, hnode, hbs, hnx, fun g => ?_, fun g hg => ?_⟩
    · rw [addPageCache_file, hb]
    · rw [addPageCache_ne _ _ hg, hb]
  · exact hprocs
  · exact hset r.used (by omega) _ rfl
  · exact fun j hj => (hholds j hj).1
  · have hcache : (s.fileBack f).pageCache = (r.st.fileBack f).pageCache := by rw [hb]
    have hindex : (s.fileBack f).numPageIndex = (r.st.fileBack f).numPageIndex := by rw [hb]
    refine ⟨⟨datablk, _, _⟩, (addPageCache_self s f _).1.trans (congrArg (· ++ [_]) hcache), hindex,
      ?_, fun j hj => (hholds j hj).2⟩
    exact hdk ▸ hset k hku _ rfl
  · rw [(addPageCache_self s f _).2, hb]
  · exact hnext

theorem fetchPage_read (hfs : fs.cluster_sz_in_bytes = PAGE_SIZE) (hfr : Frames c)
    (h : fileCacheGetPhysicalBlock r.st f c.offset = none)
    (hs : ¬ (r.start ≠ 0 ∧ c.shared = true)) :
    Read fs d c n f r (fetchPage fs d c n f made i r) := by
  unfold fetchPage pickPage
  rw [if_neg hs, Option.bind_some, h]
  dsimp only
  split_ifs
  · exact readPage_read hfs hfr h _
  · exact readPage_read hfs hfr h _

/-! ## The invariant of the loop -/

variable {p addr : ℕ}

theorem LoopInv.congr (h : LoopInv fs d c n f r) (hu : r'.used = r.used)
    (hm : r'.st.mem = r.st.mem) (hn : r'.st.nodes = r.st.nodes)
    (hb : r'.st.fileBacks = r.st.fileBacks)
    (hf : ∀ g, (r'.st.fileBack g).file = (r.st.fileBack g).file ∧
      (r'.st.fileBack g).pageCache = (r.st.fileBack g).pageCache) :
    LoopInv fs d c n f r' where
  entries g hg e he := by
    rw [(hf g).2] at he
    rw [hb] at hg
    obtain ⟨h1, h2⟩ := h.entries g hg e he
    rw [hm, fileOf, hn, (hf g).1]
    exact ⟨h1.later hu.ge, h2⟩
  same := by
    rw [fileOf, hn, (hf f).1]
    exact h.same

theorem Leaves.fileOf (hl : Leaves c f r r') (g : ℕ) :
    SameFile (fileOf r'.st g) (fileOf r.st g) := by
  unfold Mmap.fileOf
  rw [hl.file g]
  exact hl.nodes _

theorem LoopInv.found {x : ℕ × Loop} (h : LoopInv fs d c n f r)
    (hx : Found c f blk i made r x) : LoopInv fs d c n f x.2 where
  entries g hg e he := by
    rw [hx.leaves.backs] at hg
    rw [hx.backs] at he
    obtain ⟨h1, h2⟩ := h.entries g hg e he
    exact ⟨h1.later hx.leaves.used, h2.leaves h1 hx.leaves⟩
  same := by
    rw [fileOf, hx.nodes, hx.backs]
    exact h.same

theorem SameFile.symm (h : SameFile file file') : SameFile file' file := ⟨h.1.symm, h.2.symm⟩

theorem SameFile.trans {file'' : AuVFSNode} (h : SameFile file file')
    (h' : SameFile file' file'') : SameFile file file'' := ⟨h.1.trans h'.1, h.2.trans h'.2⟩

theorem Holds.sameFile {mem : ℕ → UInt8} (h : Holds fs d mem file q j)
    (hs : SameFile file' file) : Holds fs d mem file' q j :=
  fun a ha b hb => h a ha b (hs.hasByte.mp hb)

theorem LoopInv.read {x : ℕ × Loop} (h : LoopInv fs d c n f r)
    (hst : Stands fs d c (r.st.nodes n).node (r.st.fileBack f).numPageIndex)
    (hx : Read fs d c n f r x) : LoopInv fs d c n f x.2 where
  entries g hg e he := by
    rw [hx.leaves.backs] at hg
    have hold : e ∈ (r.st.fileBack g).pageCache →
        Settled c x.2 e.physicalPage ∧ EntryOk fs d x.2.st.mem (fileOf x.2.st g) e := by
      intro he
      obtain ⟨h1, h2⟩ := h.entries g hg e he
      exact ⟨h1.later hx.leaves.used, h2.leaves h1 hx.leaves⟩
    by_cases hgf : g = f
    · subst hgf
      obtain ⟨e', hcache, hindex, hset, hholds⟩ := hx.entry
      rw [hcache] at he
      rcases List.mem_append.mp he with he | he
      · exact hold he
      · rw [List.mem_singleton.mp he]
        refine ⟨hset, hset.1, ?_⟩
        rw [hindex]
        exact (hholds _ hst).sameFile ((hx.leaves.fileOf g).trans h.same)
    · rw [hx.leaves.caches g hgf] at he
      exact hold he
  same := (hx.leaves.fileOf f).trans (h.same.trans (hx.leaves.nodes n).symm)

/-- A page that is found has its block. -/
theorem LoopInv.cached (h : LoopInv fs d c n f r)
    (hblk : fileCacheGetPhysicalBlock r.st f c.offset = some blk) :
    Settled c r blk ∧ Holds fs d r.st.mem (r.st.nodes n).node blk c.index := by
  obtain ⟨e, he, hi, rfl⟩ := getBlock_some hblk
  obtain ⟨h1, h2⟩ := h.entries f (.inr rfl) e he
  exact ⟨h1, hi ▸ h2.holds.sameFile h.same.symm⟩

/-- A page that was read is found the next time. -/
theorem Read.found {x : ℕ × Loop} (hx : Read fs d c n f r x)
    (hidx : (r.st.fileBack f).numPageIndex = c.index) :
    ∃ blk, fileCacheGetPhysicalBlock x.2.st f c.offset = some blk := by
  obtain ⟨e, hcache, hindex, -⟩ := hx.entry
  unfold fileCacheGetPhysicalBlock
  rw [hcache]
  have hsome : ((((r.st.fileBack f).pageCache ++ [e]).find? fun e =>
      e.pageIndex = c.offset % 2 ^ 32 / PAGE_SIZE).map (·.physicalPage)).isSome := by
    rw [Option.isSome_map, List.find?_isSome]
    exact ⟨e, List.mem_append_right _ (List.mem_singleton_self e),
      decide_eq_true (hindex.trans hidx)⟩
  exact Option.isSome_iff_exists.mp hsome

/-- A byte of the file lies below `2 ^ 32`, where the index is the whole page number. -/
theorem Holds.index {mem : ℕ → UInt8} (h : Holds fs d mem file q c.index)
    (hsize : file.size < 2 ^ 32) : Holds fs d mem file q (c.offset / PAGE_SIZE) := by
  intro a ha b hb
  have hidx : c.index = c.offset / PAGE_SIZE := by
    have hlt := hb.1
    unfold Call.index
    unfold PAGE_SIZE at hlt ⊢
    omega
  rw [← hidx] at hb
  exact h a ha b hb

/-- What the first turn does up to its page's frame. -/
structure First (fs : FatFS) (d : Disk) (c : Call) (n f : ℕ) (r : Loop) (x : ℕ × Loop) : Prop where
  inv : LoopInv fs d c n f x.2
  leaves : Leaves c f r x.2
  procs : x.2.st.procs = r.st.procs
  settled : Settled c x.2 x.1
  holds : Holds fs d x.2.st.mem (r.st.nodes n).node x.1 (c.offset / PAGE_SIZE)
  cached : ∃ blk, fileCacheGetPhysicalBlock x.2.st f c.offset = some blk

theorem fetchPage_first (hfs : fs.cluster_sz_in_bytes = PAGE_SIZE) (hfr : Frames c)
    (h : LoopInv fs d c n f r) (hsize : (r.st.nodes n).node.size < 2 ^ 32)
    (hs : r.start ≠ 0 ∧ c.shared = true →
      fileCacheGetPhysicalBlock r.st f c.offset = some r.start ∧ r.start < 2 ^ 64)
    (hst : fileCacheGetPhysicalBlock r.st f c.offset = none →
      (r.st.fileBack f).numPageIndex = c.index ∧ Stands fs d c (r.st.nodes n).node c.index) :
    First fs d c n f r (fetchPage fs d c n f made 0 r) := by
  cases hblk : fileCacheGetPhysicalBlock r.st f c.offset with
  | some blk =>
    obtain ⟨hset, hholds⟩ := h.cached hblk
    have hx : Found c f blk 0 made r (fetchPage fs d c n f made 0 r) :=
      fetchPage_found hfr hblk hset
    have hstart : (r.start = 0 ∨ c.shared = false) ∨ 0 = 0 ∧ r.start = blk ∧ blk < 2 ^ 64 := by
      by_cases hc : r.start ≠ 0 ∧ c.shared = true
      · obtain ⟨hsome, hlt⟩ := hs hc
        rw [hblk] at hsome
        have heq := Option.some.inj hsome
        exact .inr ⟨rfl, heq.symm, heq ▸ hlt⟩
      · rw [not_and_or, not_not, Bool.not_eq_true] at hc
        exact .inl hc
    obtain ⟨hset', hmem⟩ := hx.frame hstart
    refine ⟨h.found hx, hx.leaves, hx.procs, hset', ?_, blk, ?_⟩
    · apply Holds.index _ hsize
      intro a ha b hb
      rw [hmem a ha]
      exact hholds a ha b hb
    · rw [getBlock_congr (s := r.st) (by rw [hx.backs]), hblk]
  | none =>
    obtain ⟨hidx, hstands⟩ := hst hblk
    have hx : Read fs d c n f r (fetchPage fs d c n f made 0 r) :=
      fetchPage_read hfs hfr hblk fun hc => by
        have hsome := (hs hc).1
        rw [hblk] at hsome
        exact Option.some_ne_none _ hsome.symm
    exact ⟨h.read (hidx ▸ hstands) hx, hx.leaves, hx.procs, hx.settled,
      (hx.holds _ hstands).index hsize, hx.found hidx⟩

def pageAt (s : State) (p v : ℕ) : Option ℕ := (s.procs p).pages v

theorem auMapPage_pageAt (s : State) (p phys virt v : ℕ) :
    pageAt (auMapPage s p phys virt) p v = (pageAt s p v).or
      (if v = virt / PAGE_SIZE then some (phys / PAGE_SIZE * PAGE_SIZE) else none) := by
  unfold auMapPage pageAt
  dsimp only
  cases hp : (s.procs p).pages (virt / PAGE_SIZE) with
  | some x =>
    by_cases hv : v = virt / PAGE_SIZE
    · rw [hv, hp]
      rfl
    · rw [if_neg hv, Option.or_none]
  | none =>
    dsimp only
    rw [Function.update_self]
    dsimp only
    by_cases hv : v = virt / PAGE_SIZE
    · rw [hv, Function.update_self, hp, if_pos rfl]
      rfl
    · rw [Function.update_of_ne hv, if_neg hv, Option.or_none]

/-- Everything but the page table. -/
structure SameData (s s' : State) : Prop where
  mem : s'.mem = s.mem
  nodes : s'.nodes = s.nodes
  backs : s'.fileBacks = s.fileBacks
  next : s'.nextFileBack = s.nextFileBack
  back : ∀ g, (s'.fileBack g).file = (s.fileBack g).file ∧
    (s'.fileBack g).pageCache = (s.fileBack g).pageCache ∧
    (s'.fileBack g).numPageIndex = (s.fileBack g).numPageIndex

theorem SameData.refl (s : State) : SameData s s :=
  ⟨rfl, rfl, rfl, rfl, fun _ => ⟨rfl, rfl, rfl⟩⟩

theorem SameData.trans {s' s'' : State} (h : SameData s s') (h' : SameData s' s'') :
    SameData s s'' where
  mem := h'.mem.trans h.mem
  nodes := h'.nodes.trans h.nodes
  backs := h'.backs.trans h.backs
  next := h'.next.trans h.next
  back g := ⟨(h'.back g).1.trans (h.back g).1, (h'.back g).2.1.trans (h.back g).2.1,
    (h'.back g).2.2.trans (h.back g).2.2⟩

theorem auMapPage_data (s : State) (p phys virt : ℕ) : SameData s (auMapPage s p phys virt) := by
  unfold auMapPage
  dsimp only
  split
  · exact .refl s
  · exact ⟨rfl, rfl, rfl, rfl, fun _ => ⟨rfl, rfl, rfl⟩⟩

theorem markComplete_data (s : State) (n f : ℕ) : SameData s (markComplete s n f) := by
  unfold markComplete
  split_ifs
  · refine ⟨rfl, rfl, rfl, rfl, fun g => ?_⟩
    unfold setFileBack
    dsimp only
    by_cases hg : g = f
    · rw [hg, Function.update_self]
      exact ⟨rfl, rfl, rfl⟩
    · rw [Function.update_of_ne hg]
      exact ⟨rfl, rfl, rfl⟩
  · exact .refl s

theorem markComplete_procs (s : State) (n f : ℕ) : (markComplete s n f).procs = s.procs := by
  unfold markComplete
  split_ifs <;> rfl

theorem SameData.leaves (h : SameData r.st s) : Leaves c f r { r with st := s } :=
  ⟨le_rfl, fun _ _ _ _ => by rw [h.mem], fun m => by rw [h.nodes]; exact ⟨rfl, rfl⟩, h.backs,
    h.next, fun g => (h.back g).1, fun g _ => (h.back g).2.1⟩

theorem LoopInv.sameData (hi : LoopInv fs d c n f r) (h : SameData r.st s) :
    LoopInv fs d c n f { r with st := s } :=
  hi.congr rfl h.mem h.nodes h.backs fun g => ⟨(h.back g).1, (h.back g).2.1⟩

end Xeneva.Mmap
