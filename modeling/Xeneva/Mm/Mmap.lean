import Xeneva.Base.Run
import Xeneva.Fs.Fat

/-!
# Memory mappings of files

`CreateMemMapping` reads a file of the FAT root a block a page, and keeps the pages in a cache
that is found by the file's name. Physical memory is one array of bytes. The frames that the
frame manager hands out during a call, and whether the heap has room, are given with the call.
-/

namespace Xeneva.Mmap
open Base Fat

def MEMMAP_FLAG_SHARED : ℕ := 1
def MEMMAP_FLAG_COW : ℕ := 2

/-- `cached` is `FS_FLAG_CACHED` and `general` is `FS_FLAG_GENERAL`. -/
structure VfsNode where
  filename : List Char
  general : Bool
  cached : Bool := false
  node : AuVFSNode

structure AuMMPageCache where
  physicalPage : ℕ
  diskBlock : ℕ
  pageIndex : ℕ
  deriving DecidableEq, Repr

structure AuMMFileBack where
  file : ℕ
  pageCache : List AuMMPageCache := []
  readComplete : Bool := false
  numPageIndex : ℕ := 0
  deriving DecidableEq, Repr

structure AuSharedMmapObject where
  objectName : List Char
  beginPhysicalAddr : ℕ
  len : ℕ
  ownerProc : ℕ
  deriving DecidableEq, Repr

/-- `pages` is the page table: the frame of each virtual page. -/
structure AuProcess where
  fds : ℕ → Option ℕ
  mmap_next : ℕ
  proc_mmap_len : ℕ
  pages : ℕ → Option ℕ

/-- Nodes and file backs are found by their pointers, processes by their ids. `rootFs` says
whether a root file system is mounted. -/
structure State where
  nodes : ℕ → VfsNode
  fileBack : ℕ → AuMMFileBack
  nextFileBack : ℕ
  fileBacks : List ℕ
  page_cache_enable : Bool
  shmmaplist : List AuSharedMmapObject
  procs : ℕ → AuProcess
  mem : ℕ → UInt8
  rootFs : Bool

/-- `proc` is the caller's process and `fd` its file descriptor, if there are any. `frames` are
the frames that are handed out, one after the other. -/
structure Call where
  proc : Option ℕ
  address : ℕ
  len : ℕ
  flags : ℕ
  fd : Option ℕ
  offset : ℕ
  frames : ℕ → ℕ
  backRoom : Bool
  objectRoom : Bool

def Call.shared (c : Call) : Bool := c.flags &&& MEMMAP_FLAG_SHARED ≠ 0

def Call.cow (c : Call) : Bool := c.flags &&& MEMMAP_FLAG_COW ≠ 0

def pageAlign (value : ℕ) : ℕ :=
  if value % PAGE_SIZE ≠ 0 then (value + PAGE_SIZE) % 2 ^ 64 / PAGE_SIZE * PAGE_SIZE else value

/-- What is left of a name behind its last slash. -/
def lastPart (fname : List Char) : List Char → List Char
  | [] => fname
  | c :: cs => lastPart (if c = '/' then cs else fname) cs

def fileCacheLookup (s : State) (filename : List Char) : Option ℕ :=
  if !s.page_cache_enable then none
  else s.fileBacks.find? fun f =>
    lastPart filename filename = (s.nodes (s.fileBack f).file).filename

def addFileBack (s : State) (f : ℕ) : State :=
  if !s.page_cache_enable then s else { s with fileBacks := s.fileBacks ++ [f] }

/-- The offset has 32 bits here. -/
def fileCacheGetPhysicalBlock (s : State) (f fileoffset : ℕ) : Option ℕ :=
  ((s.fileBack f).pageCache.find? fun e => e.pageIndex = fileoffset % 2 ^ 32 / PAGE_SIZE).map
    (·.physicalPage)

def setFileBack (s : State) (f : ℕ) (fb : AuMMFileBack) : State :=
  { s with fileBack := Function.update s.fileBack f fb }

def addPageCache (s : State) (f : ℕ) (e : AuMMPageCache) : State :=
  let fb := s.fileBack f
  setFileBack s f { fb with
    pageCache := fb.pageCache ++ [e], numPageIndex := (fb.numPageIndex + 1) % 2 ^ 32 }

/-- The file's entry in the cache, or a new one. -/
def openFileBack (s : State) (c : Call) (n : ℕ) : State × Option ℕ :=
  match fileCacheLookup s (s.nodes n).filename with
  | some f => (s, some f)
  | none =>
    if c.backRoom then
      let f := s.nextFileBack
      (addFileBack { setFileBack s f { file := n } with nextFileBack := f + 1 } f, some f)
    else (s, none)

/-- The state, the address of a foreign object, and whether an object is made. -/
def openShared (s : State) (c : Call) (p n : ℕ) : State × ℕ × Bool :=
  let name := (s.nodes n).filename
  if !c.shared then (s, 0, false)
  else
    match s.shmmaplist.find? fun o => o.objectName = name with
    | some o => if o.ownerProc = p then (s, 0, false) else (s, o.beginPhysicalAddr, false)
    | none =>
      if c.objectRoom then
        ({ s with shmmaplist := s.shmmaplist ++ [⟨name, 0, 0, p⟩] }, 0, true)
      else (s, 0, false)

/-- What the call leaves in its object. -/
def closeShared (s : State) (c : Call) (p n len start : ℕ) (made : Bool) : State :=
  let name := (s.nodes n).filename
  if !c.shared then s
  else
    { s with shmmaplist :=
        s.shmmaplist.modify (s.shmmaplist.findIdx fun o => o.objectName = name) fun o =>
          let o := if made then { o with beginPhysicalAddr := start, len } else o
          if o.ownerProc = p then { o with len := (o.len + len) % 2 ^ 64 } else o }

def copyPage (s : State) (dst src : ℕ) : State :=
  { s with mem := fun a =>
      if dst ≤ a ∧ a < dst + PAGE_SIZE then s.mem (src + (a - dst)) else s.mem a }

/-- One block of the file, wherever the node stands. -/
def readBlock (fs : FatFS) (d : Disk) (s : State) (n buf : ℕ) : State :=
  let (data, node) := fatRead fs d (s.nodes n).node fun k => s.mem (buf + k)
  { s with
    mem := fun a => if buf ≤ a then data (a - buf) else s.mem a
    nodes := Function.update s.nodes n { s.nodes n with node } }

/-- A page that is mapped already stays. -/
def auMapPage (s : State) (p phys virt : ℕ) : State :=
  let proc := s.procs p
  match proc.pages (virt / PAGE_SIZE) with
  | some _ => s
  | none => { s with procs := Function.update s.procs p { proc with
      pages := Function.update proc.pages (virt / PAGE_SIZE)
        (some (phys / PAGE_SIZE * PAGE_SIZE)) } }

/-- `start` is `startingPhysAddr`, and `used` counts the frames handed out. -/
structure Loop where
  st : State
  start : ℕ
  used : ℕ

/-- The frame for page `i`, before the file is read. -/
def pickPage (c : Call) (fb : Option ℕ) (i : ℕ) (r : Loop) : ℕ × Loop :=
  if r.start ≠ 0 ∧ c.shared then ((r.start + i * PAGE_SIZE) % 2 ^ 64, r)
  else
    match fb.bind fun f => fileCacheGetPhysicalBlock r.st f c.offset with
    | none => (c.frames r.used, { r with used := r.used + 1 })
    | some datablk =>
      if c.cow then
        (c.frames r.used, { r with
          st := copyPage r.st (c.frames r.used) datablk, used := r.used + 1 })
      else (datablk, r)

/-- The block is read into `datablk`; a private copy goes to `phys`. -/
def fillPage (fs : FatFS) (d : Disk) (c : Call) (s : State) (n phys datablk : ℕ) : State :=
  if c.cow then
    copyPage (if (s.nodes n).node.eof then s else readBlock fs d s n datablk) phys datablk
  else readBlock fs d s n datablk

/-- A page that is not in the cache is read into it. -/
def readPage (fs : FatFS) (d : Disk) (c : Call) (n f phys : ℕ) (r : Loop) : Loop :=
  match fileCacheGetPhysicalBlock r.st f c.offset with
  | some _ => r
  | none =>
    let datablk := if c.cow then c.frames r.used else phys
    let s := fillPage fs d c r.st n phys datablk
    let diskBlock := fatClusterToSector32 fs (s.nodes n).node.current % 2 ^ 32
    { r with
      st := addPageCache s f ⟨datablk, diskBlock, (s.fileBack f).numPageIndex⟩
      used := if c.cow then r.used + 1 else r.used }

def markComplete (s : State) (n f : ℕ) : State :=
  if (s.nodes n).node.eof then setFileBack s f { s.fileBack f with readComplete := true } else s

/-- One turn; `back` is the file and its entry in the cache. -/
def mapTurn (fs : FatFS) (d : Disk) (c : Call) (p addr : ℕ) (back : Option (ℕ × ℕ))
    (made : Bool) (i : ℕ) (r : Loop) : Loop :=
  let (phys, r) := pickPage c (back.map (·.2)) i r
  let r := if r.start = 0 ∧ made then { r with start := phys } else r
  let r := match back with
    | none => r
    | some (n, f) =>
      let r := readPage fs d c n f phys r
      { r with st := markComplete r.st n f }
  { r with st := auMapPage r.st p phys ((addr + i * PAGE_SIZE) % 2 ^ 64) }

def mapLoop (fs : FatFS) (d : Disk) (c : Call) (p addr : ℕ) (back : Option (ℕ × ℕ))
    (made : Bool) : ℕ → ℕ → Loop → Loop
  | 0, _, r => r
  | pages + 1, i, r =>
    mapLoop fs d c p addr back made pages (i + 1) (mapTurn fs d c p addr back made i r)

/-- The range is reserved before the file is looked at. -/
def reserveRange (s : State) (p address len : ℕ) : State × ℕ :=
  let proc := s.procs p
  let addr := if address = 0 then proc.mmap_next else address
  let mmap_next :=
    if address = 0 then (proc.mmap_next + len) % 2 ^ 64
    else if (address + len) % 2 ^ 64 > proc.mmap_next then (address + len) % 2 ^ 64
    else proc.mmap_next
  ({ s with procs := Function.update s.procs p { proc with
      mmap_next, proc_mmap_len := (proc.proc_mmap_len + len) % 2 ^ 64 } }, addr)

def setCached (s : State) (n : ℕ) : State :=
  { s with nodes := Function.update s.nodes n { s.nodes n with cached := true } }

/-- The state, and the address or 0. -/
def createMemMapping (fs : FatFS) (d : Disk) (s : State) (c : Call) : State × ℕ :=
  match c.proc with
  | none => (s, 0)
  | some p =>
    if c.len = 0 then (s, 0)
    else
      let file := c.fd.bind (s.procs p).fds
      let len := pageAlign c.len
      let (s, addr) := reserveRange s p c.address len
      match file with
      | none => ((mapLoop fs d c p addr none false (len / PAGE_SIZE) 0 ⟨s, 0, 0⟩).st, addr)
      | some n =>
        if !(s.nodes n).general then
          (setCached (mapLoop fs d c p addr none false (len / PAGE_SIZE) 0 ⟨s, 0, 0⟩).st n, addr)
        else if !s.rootFs then (s, 0)
        else
          let (s, fb) := openFileBack s c n
          let (s, start, made) := openShared s c p n
          let r := mapLoop fs d c p addr (fb.map fun f => (n, f)) made (len / PAGE_SIZE) 0
            ⟨s, start, 0⟩
          (setCached (closeShared r.st c p n len r.start made) n, addr)

/-- Between the mappings files are opened and moved in, processes change their descriptors and
their address spaces, objects go, and memory is written. -/
inductive Op
  | map (c : Call)
  | openFile (n : ℕ) (v : VfsNode)
  | moveTo (n current : ℕ) (eof : Bool)
  | setProcess (p : ℕ) (v : AuProcess)
  | setObjects (objs : List AuSharedMmapObject)
  | store (a : ℕ) (v : UInt8)
  | enableCache

def step (fs : FatFS) (d : Disk) (s : State) : Op → State
  | .map c => (createMemMapping fs d s c).1
  | .openFile n v => { s with nodes := Function.update s.nodes n v }
  | .moveTo n current eof =>
    let node := { (s.nodes n).node with current, eof }
    { s with nodes := Function.update s.nodes n { s.nodes n with node } }
  | .setProcess p v => { s with procs := Function.update s.procs p v }
  | .setObjects objs => { s with shmmaplist := objs }
  | .store a v => { s with mem := Function.update s.mem a v }
  | .enableCache => { s with page_cache_enable := true }

def noProcess : AuProcess := ⟨fun _ => none, 0, 0, fun _ => none⟩

/-- The empty cache. -/
def boot (nodes : ℕ → VfsNode) (mem : ℕ → UInt8) : State where
  nodes
  fileBack := fun _ => { file := 0 }
  nextFileBack := 0
  fileBacks := []
  page_cache_enable := false
  shmmaplist := []
  procs := fun _ => noProcess
  mem
  rootFs := true

/-- The byte `x` of the file is `b`. -/
def HasByte (fs : FatFS) (d : Disk) (file : AuVFSNode) (x : ℕ) (b : UInt8) : Prop :=
  let k := x / fs.cluster_sz_in_bytes
  let a := x % fs.cluster_sz_in_bytes
  x < file.size ∧ (∀ m ≤ k, Fat.walk fs d m file.first_block < FAT_BAD_CLUSTER % 2 ^ 28) ∧
    b = d (fatClusterToSector32 fs (Fat.walk fs d k file.first_block) % 2 ^ 32 +
      a / fs.bytesPerSector) (a % fs.bytesPerSector)

/-- Every page of the range that the call returns is mapped, to a frame with the bytes of the
file behind the page's offset. -/
def Mapped (fs : FatFS) (d : Disk) (s : State) (c : Call) : Prop :=
  ∀ p n, c.proc = some p → c.fd.bind (s.procs p).fds = some n → (s.nodes n).general →
    (createMemMapping fs d s c).2 ≠ 0 → ∀ i < pageAlign c.len / PAGE_SIZE, ∃ frame,
      ((createMemMapping fs d s c).1.procs p).pages
        (((createMemMapping fs d s c).2 + i * PAGE_SIZE) % 2 ^ 64 / PAGE_SIZE) = some frame ∧
      ∀ j < PAGE_SIZE, ∀ b,
        HasByte fs d (s.nodes n).node (c.offset + i * PAGE_SIZE + j) b →
          (createMemMapping fs d s c).1.mem (frame + j) = b

end Xeneva.Mmap
