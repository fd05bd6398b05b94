import Xeneva.Base.Run
import Xeneva.Base.DList
import Xeneva.Base.Buddy

/-!
# The physical memory manager

A buddy allocator of page frames. Pages are numbers; each has a descriptor, and the free
blocks of an order hang together by the descriptors of their heads. Every function runs
with the lock held. `fatal` stops the machine.
-/

namespace Xeneva.Pmm
open Base

def PAGE_SIZE : ℕ := 4096
def PMM_MAX_ORDER : ℕ := 32
def PMM_MAX_REGIONS : ℕ := 128
def PMM_MAX_RESERVATIONS : ℕ := 1024
def PMM_NO_PAGE : ℕ := 2 ^ 64 - 1
def PMM_INVALID_PHYS : ℕ := 2 ^ 64 - 1
def PMM_NO_OWNER_SLOT : ℕ := 65535
def PMM_OWNER_SLOTS : ℕ := 256
def PMM_OWNER_KERNEL : ℤ := 0
def AURORA_PAGE_NORMAL : ℕ := 8

inductive PmmPageState
  | unmanaged | reserved | freeHead | freeTail | allocHead | allocTail
  deriving DecidableEq, Repr

structure PmmPageDesc where
  next : ℕ := 0
  prev : ℕ := 0
  owner : ℕ := 0
  backing_block : ℤ := 0
  requested_pages : ℕ := 0
  validation_epoch : ℕ := 0
  refcount : ℕ := 0
  order : ℕ := 0
  state : PmmPageState := .unmanaged
  page_type : ℕ := 0
  owner_slot : ℕ := 0
  deriving DecidableEq, Repr

structure PmmRange where
  first : ℕ
  last : ℕ
  deriving DecidableEq, Repr

structure AuPmmStats where
  managed_pages : ℕ := 0
  free_pages : ℕ := 0
  allocated_pages : ℕ := 0
  reserved_pages : ℕ := 0
  unmanaged_pages : ℕ := 0
  deriving DecidableEq, Repr

structure PmmOwnerEntry where
  id : ℤ := 0
  pages : ℕ := 0
  in_use : Bool := false
  deriving DecidableEq, Repr

/-- `page_desc` has `total_pages` entries and `free_head` has `PMM_MAX_ORDER + 1`; the further
ones are what lies behind them in memory. -/
structure State where
  page_desc : ℕ → PmmPageDesc
  total_pages : ℕ
  free_head : ℕ → ℕ
  pmm_stats : AuPmmStats
  validation_epoch : ℕ
  pmm_owner_table : List PmmOwnerEntry

structure Fatal where
  reason : String
  page : ℕ
  detail : ℕ
  deriving DecidableEq, Repr

def fatal {α : Type} (reason : String) (page detail : ℕ) : Except Fatal α :=
  .error { reason, page, detail }

/-- A full table folds a new owner into the kernel's entry. -/
def pmmOwnerSlot (table : List PmmOwnerEntry) (id : ℤ) : List PmmOwnerEntry × ℕ :=
  match table.findIdx? fun e => e.in_use ∧ e.id = id with
  | some i => (table, i)
  | none =>
    match table.findIdx? fun e => ¬ e.in_use with
    | some i => (table.set i { id, pages := 0, in_use := true }, i)
    | none =>
      match table.findIdx? fun e => e.id = PMM_OWNER_KERNEL with
      | some i => (table, i)
      | none => (table, 0)

def pmmOwnerAdd (table : List PmmOwnerEntry) (slot count : ℕ) : List PmmOwnerEntry :=
  table.modify slot fun e => if e.in_use then { e with pages := e.pages + count } else e

/-- Never wraps. -/
def pmmOwnerDel (table : List PmmOwnerEntry) (slot count : ℕ) : List PmmOwnerEntry :=
  table.modify slot fun e =>
    if e.in_use then { e with pages := if e.pages ≥ count then e.pages - count else 0 } else e

/-! ## Free blocks -/

def State.setDesc (st : State) (p : ℕ) (d : PmmPageDesc) : State :=
  { st with page_desc := Function.update st.page_desc p d }

/-- A loop over the descriptors of a block. -/
def State.forBlock (st : State) (head order : ℕ) (f : ℕ → PmmPageDesc → PmmPageDesc) : State :=
  { st with page_desc := fun p =>
      if head ≤ p ∧ p < head + 2 ^ order then f (p - head) (st.page_desc p)
      else st.page_desc p }

def validPage (st : State) (p : ℕ) : Bool := p < st.total_pages

def floorOrder (pages : ℕ) : ℕ := Nat.log2 pages

/-- `n` orders are left up to the largest. -/
def orderLoop (pages : ℕ) : ℕ → ℕ → ℕ
  | 0, order => order
  | n + 1, order => if 2 ^ order < pages then orderLoop pages n (order + 1) else order

def orderForPages (pages : ℕ) : ℕ := orderLoop pages PMM_MAX_ORDER 0

def markFreeBlock (st : State) (head order : ℕ) : Except Fatal State :=
  if ¬ validPage st head ∨ 2 ^ order > st.total_pages - head then
    fatal "free block outside metadata" head order
  else
    .ok (st.forBlock head order fun i d => { d with
      next := PMM_NO_PAGE
      prev := PMM_NO_PAGE
      owner := head
      requested_pages := 0
      refcount := 0
      order
      owner_slot := PMM_NO_OWNER_SLOT
      state := if i = 0 then .freeHead else .freeTail
      page_type := 0 })

/-- The check that list insertion and removal share. -/
def isFreeHead (st : State) (head order : ℕ) : Bool :=
  (st.page_desc head).state = .freeHead ∧ (st.page_desc head).owner = head ∧
    (st.page_desc head).order = order

def listInsert (st : State) (head order : ℕ) : Except Fatal State :=
  if ¬ isFreeHead st head order then fatal "invalid free-list insertion" head order
  else
    let next := st.free_head order
    let st := st.setDesc head { st.page_desc head with prev := PMM_NO_PAGE, next }
    if next ≠ PMM_NO_PAGE ∧ ¬ validPage st next then fatal "bad free-list next" head next
    else
      let st := if next ≠ PMM_NO_PAGE then
        st.setDesc next { st.page_desc next with prev := head } else st
      .ok { st with free_head := Function.update st.free_head order head }

/-- The part of `list_remove` for the block before `head`. -/
def unlinkPrev (st : State) (head order prev next : ℕ) : Except Fatal State :=
  if prev = PMM_NO_PAGE then
    if st.free_head order ≠ head then fatal "free-list head mismatch" head order
    else .ok { st with free_head := Function.update st.free_head order next }
  else if ¬ validPage st prev ∨ (st.page_desc prev).next ≠ head then
    fatal "broken prev" head prev
  else .ok (st.setDesc prev { st.page_desc prev with next })

/-- The part of `list_remove` for the block behind `head`. -/
def unlinkNext (st : State) (head prev next : ℕ) : Except Fatal State :=
  if next = PMM_NO_PAGE then .ok st
  else if ¬ validPage st next ∨ (st.page_desc next).prev ≠ head then
    fatal "broken next" head next
  else .ok (st.setDesc next { st.page_desc next with prev })

def listRemove (st : State) (head order : ℕ) : Except Fatal State :=
  if ¬ isFreeHead st head order then fatal "invalid free-list removal" head order
  else do
    let prev := (st.page_desc head).prev
    let next := (st.page_desc head).next
    let st ← unlinkPrev st head order prev next
    let st ← unlinkNext st head prev next
    .ok (st.setDesc head { st.page_desc head with next := PMM_NO_PAGE, prev := PMM_NO_PAGE })

/-- The largest order up to `order` that `first` is aligned to. -/
def fitOrder (first : ℕ) : ℕ → ℕ
  | 0 => 0
  | order + 1 => if first % 2 ^ (order + 1) ≠ 0 then fitOrder first order else order + 1

/-- A turn takes a page at least, so `last - first` turns do. -/
def addFreeRangeLoop (last : ℕ) : ℕ → State → ℕ → Except Fatal State
  | 0, st, _ => .ok st
  | n + 1, st, first =>
    if first < last then do
      let order := fitOrder first (floorOrder (last - first))
      let st ← markFreeBlock st first order
      let st ← listInsert st first order
      addFreeRangeLoop last n st (first + 2 ^ order)
    else .ok st

def addFreeRange (st : State) (r : PmmRange) : Except Fatal State :=
  addFreeRangeLoop r.last (r.last - r.first) st r.first

def markAllocated (st : State) (head order requested type slot : ℕ) : State :=
  st.forBlock head order fun i d => { d with
    next := PMM_NO_PAGE
    prev := PMM_NO_PAGE
    owner := head
    backing_block := -1
    requested_pages := if i = 0 then requested else 0
    refcount := 1
    order
    state := if i = 0 then .allocHead else .allocTail
    page_type := type
    owner_slot := if i = 0 then slot else d.owner_slot }

/-- The first block of a list that ends below the ceiling; a list has no more than
`total_pages` blocks. -/
def findFit (st : State) (wanted ceiling : ℕ) : ℕ → ℕ → Option ℕ
  | 0, _ => none
  | n + 1, head =>
    if head = PMM_NO_PAGE then none
    else if ceiling ≠ 0 ∧ (head + 2 ^ wanted) * PAGE_SIZE - 1 > ceiling then
      findFit st wanted ceiling n (st.page_desc head).next
    else some head

/-- The first order from `order` on with a block that fits; `n` orders are left. -/
def findBlock (st : State) (wanted ceiling : ℕ) : ℕ → ℕ → Option (ℕ × ℕ)
  | 0, _ => none
  | n + 1, order =>
    match findFit st wanted ceiling st.total_pages (st.free_head order) with
    | some head => some (head, order)
    | none => findBlock st wanted ceiling n (order + 1)

/-- Splits the block of order `wanted + n` at `head`. -/
def splitLoop (head wanted : ℕ) : ℕ → State → Except Fatal State
  | 0, st => .ok st
  | n + 1, st => do
    let order := wanted + n
    let right := head + 2 ^ order
    let st ← markFreeBlock st right order
    let st ← listInsert st right order
    let st ← markFreeBlock st head order
    splitLoop head wanted n st

def takeBlock (st : State) (wanted alignment ceiling : ℕ) : Except Fatal (State × ℕ) :=
  let aorder := orderForPages alignment
  let start := if wanted > aorder then wanted else aorder
  match findBlock st wanted ceiling (PMM_MAX_ORDER + 1 - start) start with
  | none => .ok (st, PMM_NO_PAGE)
  | some (head, order) => do
    let st ← listRemove st head order
    let st ← splitLoop head wanted (order - wanted) st
    .ok (st, head)

/-- Joins the block with its buddy while that is free; `n` orders are left up to the
largest. -/
def mergeLoop : ℕ → State → ℕ → ℕ → Except Fatal (State × ℕ × ℕ)
  | 0, st, head, order => .ok (st, head, order)
  | n + 1, st, head, order =>
    let buddy := buddy head order
    if ¬ validPage st buddy ∨ ¬ isFreeHead st buddy order then .ok (st, head, order)
    else do
      let st ← listRemove st buddy order
      let head := if buddy < head then buddy else head
      let st ← markFreeBlock st head (order + 1)
      mergeLoop n st head (order + 1)

def releaseBlock (st : State) (head order : ℕ) : Except Fatal State := do
  let st ← markFreeBlock st head order
  let (st, head, order) ← mergeLoop (PMM_MAX_ORDER - order) st head order
  listInsert st head order

/-! ## The boot memory map -/

structure EfiMemoryDescriptor where
  type : UInt32
  phys_start : UInt64
  num_pages : UInt64
  deriving DecidableEq, Repr

structure LBMemoryRegion where
  base : UInt64
  pageCount : UInt64
  deriving DecidableEq, Repr

structure AuLittleBootProtocol where
  usable_memory_map : List LBMemoryRegion
  device_tree_base : UInt64
  device_tree_end : UInt64
  initrd_start : UInt64
  initrd_end : UInt64
  littleBootStart : UInt64
  littleBootEnd : UInt64
  deriving DecidableEq, Repr

inductive BootMap
  | uefi (map : List EfiMemoryDescriptor)
  | littleboot (lb : Option AuLittleBootProtocol)
  deriving DecidableEq, Repr

/-- `reserved_mem` are the addresses on the loader's stack, from its top down. -/
structure KernelBootInfo where
  boot : BootMap
  reserved_mem : List UInt64
  physical_direct_map_size : UInt64
  deriving DecidableEq, Repr

structure Tables where
  usable : List PmmRange := []
  reserved : List PmmRange := []
  highest : UInt64 := 0
  deriving DecidableEq, Repr

def alignUp (v a : UInt64) : UInt64 := (v + a - 1) &&& ~~~ (a - 1)

def addReservation (t : Tables) (first last : ℕ) : Except Fatal Tables :=
  if first ≥ last then .ok t
  else if t.reserved.length = PMM_MAX_RESERVATIONS then
    fatal "reservation table full" first last
  else .ok { t with reserved := t.reserved ++ [⟨first, last⟩] }

/-- Into a sorted list, behind the ranges that start where `key` does. -/
def insertRange (key : PmmRange) : List PmmRange → List PmmRange
  | [] => [key]
  | r :: rs => if r.first > key.first then key :: r :: rs else r :: insertRange key rs

/-- Joins the sorted ranges that touch; `cur` is the one being extended. -/
def coalesce (cur : PmmRange) : List PmmRange → List PmmRange
  | [] => [cur]
  | r :: rs =>
    if r.first ≤ cur.last then
      coalesce (if r.last > cur.last then { cur with last := r.last } else cur) rs
    else cur :: coalesce r rs

def normalize (ranges : List PmmRange) : List PmmRange :=
  match ranges.foldl (fun sorted key => insertRange key sorted) [] with
  | [] => []
  | r :: rs => coalesce r rs

def collectUefi (map : List EfiMemoryDescriptor) (t : Tables) : Except Fatal Tables :=
  map.foldlM (fun (t : Tables) (m : EfiMemoryDescriptor) =>
    let limit : UInt64 := m.phys_start + (m.num_pages <<< 12)
    let t := if m.type ≤ 7 ∧ limit > t.highest then { t with highest := limit } else t
    if m.type = 7 ∧ m.num_pages ≠ 0 then
      if t.usable.length = PMM_MAX_REGIONS then fatal "usable table full" t.usable.length map.length
      else .ok { t with
        usable := t.usable ++ [⟨(m.phys_start >>> 12).toNat, (limit >>> 12).toNat⟩] }
    else .ok t) t

def collectRegions (regions : List LBMemoryRegion) (t : Tables) : Except Fatal Tables :=
  regions.foldlM (fun (t : Tables) (r : LBMemoryRegion) =>
    if t.usable.length = PMM_MAX_REGIONS then
      fatal "usable table full" t.usable.length regions.length
    else
      let first := r.base >>> 12
      let last := first + r.pageCount
      let t := { t with usable := t.usable ++ [⟨first.toNat, last.toNat⟩] }
      .ok (if last <<< 12 > t.highest then { t with highest := last <<< 12 } else t)) t

def collectLittleboot (lb : Option AuLittleBootProtocol) (t : Tables) : Except Fatal Tables :=
  match lb with
  | none => fatal "missing LittleBoot protocol" PMM_NO_PAGE 0
  | some lb => do
    let t ← collectRegions lb.usable_memory_map t
    let t ← addReservation t 0 0x100
    let t ← addReservation t (lb.device_tree_base >>> 12).toNat
      (alignUp lb.device_tree_end 4096 >>> 12).toNat
    let t ← addReservation t (lb.initrd_start >>> 12).toNat (alignUp lb.initrd_end 4096 >>> 12).toNat
    addReservation t (lb.littleBootStart >>> 12).toNat (alignUp lb.littleBootEnd 4096 >>> 12).toNat

def collectMap (info : KernelBootInfo) : Except Fatal Tables :=
  match info.boot with
  | .littleboot lb => collectLittleboot lb {}
  | .uefi map => collectUefi map {}

/-- The parts of `[current, last)` between the sorted ranges `reserved`. -/
def gaps (last : ℕ) : List PmmRange → ℕ → List PmmRange
  | [], current => if current < last then [⟨current, last⟩] else []
  | r :: rs, current =>
    if current ≥ last then []
    else if r.last ≤ current then gaps last rs current
    else if r.first ≥ last then [⟨current, last⟩]
    else (if r.first > current then [⟨current, if r.first < last then r.first else last⟩] else []) ++
      gaps last rs (if r.last > current then r.last else current)

/-- The first gap with room for the descriptors. -/
def findMetadata (usable reserved : List PmmRange) (pages : ℕ) : Option ℕ :=
  usable.findSome? fun u =>
    ((gaps u.last reserved u.first).find? fun g => g.last - g.first ≥ pages).map (·.first)

/-- What `AuPmmngrInitialize` knows before it makes the descriptors. -/
structure Plan where
  usable : List PmmRange
  reserved : List PmmRange
  metadata : PmmRange
  total_pages : ℕ
  deriving DecidableEq, Repr

def sizeofPageDesc : ℕ := 48

def planMemory (info : KernelBootInfo) : Except Fatal Plan := do
  let t ← collectMap info
  let usable := normalize t.usable
  if usable = [] ∨ t.highest = 0 then fatal "no usable RAM" PMM_NO_PAGE 0
  else
    let t ← addReservation t 0 0x100
    let t ← info.reserved_mem.foldlM (fun (t : Tables) (address : UInt64) =>
      addReservation t (address >>> 12).toNat ((address >>> 12).toNat + 1)) t
    let t := { t with reserved := normalize t.reserved }
    let total_pages := (alignUp t.highest 4096 >>> 12).toNat
    let metadata_pages := (total_pages * sizeofPageDesc + (PAGE_SIZE - 1)) / PAGE_SIZE
    match findMetadata usable t.reserved metadata_pages with
    | none => fatal "no RAM for descriptors" PMM_NO_PAGE metadata_pages
    | some metadata_start =>
      let t ← addReservation t metadata_start (metadata_start + metadata_pages)
      let direct_map_size := info.physical_direct_map_size.toNat
      if direct_map_size ≠ 0 ∧
          metadata_start * PAGE_SIZE + metadata_pages * PAGE_SIZE > direct_map_size then
        fatal "descriptors outside direct map" metadata_start metadata_pages
      else .ok {
        usable
        reserved := normalize t.reserved
        metadata := ⟨metadata_start, metadata_start + metadata_pages⟩
        total_pages }

/-- The walk along one list marks its blocks and counts their pages, until a check fails. -/
def validateList (order : ℕ) : ℕ → State → ℕ → ℕ → ℕ → State × Option ℕ
  | 0, st, _, _, _ => (st, none)
  | n + 1, st, head, previous, listed =>
    if head = PMM_NO_PAGE then (st, some listed)
    else if ¬ validPage st head then (st, none)
    else
      let d := st.page_desc head
      if d.validation_epoch = st.validation_epoch ∨ d.state ≠ .freeHead ∨ d.owner ≠ head ∨
          d.order ≠ order ∨ d.prev ≠ previous ∨ head % 2 ^ order ≠ 0 then (st, none)
      else
        validateList order n
          (st.setDesc head { d with validation_epoch := st.validation_epoch })
          d.next head (listed + 2 ^ order)

/-- The lists of `n` orders from `order` on. A walk that meets no block twice has at most
`total_pages` turns and a last one. -/
def validateLists : ℕ → State → ℕ → ℕ → State × Option ℕ
  | 0, st, _, listed => (st, some listed)
  | n + 1, st, order, listed =>
    match validateList order (st.total_pages + 1) st (st.free_head order) PMM_NO_PAGE listed with
    | (st, none) => (st, none)
    | (st, some listed) => validateLists n st (order + 1) listed

/-- The owner of a tail is a head of the same order. -/
def tailOk (st : State) (d : PmmPageDesc) (head : PmmPageState) : Bool :=
  validPage st d.owner ∧ (st.page_desc d.owner).state = head ∧
    (st.page_desc d.owner).order = d.order

def pageOk (st : State) (p : ℕ) : Bool :=
  let d := st.page_desc p
  match d.state with
  | .unmanaged => true
  | .reserved => true
  | .freeHead => d.owner = p ∧ d.validation_epoch = st.validation_epoch
  | .freeTail => tailOk st d .freeHead
  | .allocHead => d.owner = p ∧ d.requested_pages ≠ 0 ∧ d.refcount ≠ 0
  | .allocTail => tailOk st d .allocHead

def isFree : PmmPageState → Bool
  | .freeHead | .freeTail => true
  | _ => false

def isAlloc : PmmPageState → Bool
  | .allocHead | .allocTail => true
  | _ => false

/-- The number of pages whose state is as asked. -/
def countPages (st : State) (f : PmmPageState → Bool) : ℕ :=
  Nat.count (fun p => f (st.page_desc p).state) st.total_pages

def counted (st : State) : AuPmmStats where
  managed_pages := countPages st fun s => s ≠ .unmanaged
  free_pages := countPages st isFree
  allocated_pages := countPages st isAlloc
  reserved_pages := countPages st fun s => s = .reserved
  unmanaged_pages := countPages st fun s => s = .unmanaged

/-- The epoch is a 32-bit number; when it wraps all marks are cleared. -/
def nextEpoch (st : State) : State :=
  if (st.validation_epoch + 1) % 2 ^ 32 = 0 then
    { st with
      page_desc := fun p =>
        if p < st.total_pages then { st.page_desc p with validation_epoch := 0 }
        else st.page_desc p
      validation_epoch := 1 }
  else { st with validation_epoch := st.validation_epoch + 1 }

def auPmmngrValidate (st : State) : State × Bool :=
  let st := nextEpoch st
  match validateLists (PMM_MAX_ORDER + 1) st 0 0 with
  | (st, none) => (st, false)
  | (st, some listed) =>
    let c := counted st
    (st, (∀ p < st.total_pages, pageOk st p) ∧ listed = c.free_pages ∧ c = st.pmm_stats ∧
      c.free_pages + c.allocated_pages + c.reserved_pages = c.managed_pages)

def inRange (r : PmmRange) (p : ℕ) : Bool := r.first ≤ p ∧ p < r.last

/-- The descriptors before the free ranges are added. -/
def initialPmm (plan : Plan) : State where
  page_desc := fun p =>
    { next := PMM_NO_PAGE, prev := PMM_NO_PAGE, owner := PMM_NO_PAGE, backing_block := -1,
      state := if plan.usable.any (inRange · p) then .reserved else .unmanaged }
  total_pages := plan.total_pages
  free_head := fun _ => PMM_NO_PAGE
  pmm_stats := {}
  validation_epoch := 0
  pmm_owner_table := List.replicate PMM_OWNER_SLOTS {}

def addUsableMinusReservations (plan : Plan) (st : State) (u : PmmRange) : Except Fatal State :=
  (gaps u.last plan.reserved u.first).foldlM addFreeRange st

/-- Up to the self tests, which are calls of the functions below. `bleed` says whether the
kernel was built for the low-memory profile, without the validation. -/
def auPmmngrInitialize (bleed : Bool) (info : KernelBootInfo) : Except Fatal State := do
  let plan ← planMemory info
  let st ← plan.usable.foldlM (addUsableMinusReservations plan) (initialPmm plan)
  let st := { st with pmm_stats := counted st }
  if bleed then .ok st
  else
    let (st, ok) := auPmmngrValidate st
    if ¬ ok then fatal "initial validation" PMM_NO_PAGE 0 else .ok st

def powerOfTwo (v : UInt32) : Bool := v ≠ 0 ∧ v &&& (v - 1) = 0

def auPmmngrAllocPagesForOwner (st : State) (pages alignment : UInt32) (ceiling : UInt64)
    (type : UInt8) (owner : ℤ) : Except Fatal (State × ℕ) :=
  if pages = 0 then .ok (st, PMM_INVALID_PHYS)
  else
    let alignment := if alignment = 0 then 1 else alignment
    if ¬ powerOfTwo alignment then .ok (st, PMM_INVALID_PHYS)
    else
      let order := orderForPages pages.toNat
      if order > PMM_MAX_ORDER then .ok (st, PMM_INVALID_PHYS)
      else do
        let (st, head) ← takeBlock st order alignment.toNat ceiling.toNat
        if head = PMM_NO_PAGE then .ok (st, PMM_INVALID_PHYS)
        else
          let count := 2 ^ order
          let (table, slot) := pmmOwnerSlot st.pmm_owner_table owner
          let st := markAllocated st head order pages.toNat
            (if type ≠ 0 then type.toNat else AURORA_PAGE_NORMAL) slot
          .ok ({ st with
            pmm_owner_table := pmmOwnerAdd table slot count
            pmm_stats := { st.pmm_stats with
              free_pages := st.pmm_stats.free_pages - count
              allocated_pages := st.pmm_stats.allocated_pages + count } }, head * PAGE_SIZE)

/-- The head of an allocated block of order 0, or any block, at a page address. -/
def isAllocHead (st : State) (page : ℕ) : Bool :=
  (st.page_desc page).state = .allocHead ∧ (st.page_desc page).owner = page

def badAddress (st : State) (phys : UInt64) : Bool :=
  phys.toNat % PAGE_SIZE ≠ 0 ∨ ¬ validPage st (phys.toNat / PAGE_SIZE)

/-- What a release does after the block is free again. -/
def accountRelease (st : State) (slot count : ℕ) : State :=
  { st with
    pmm_owner_table := pmmOwnerDel st.pmm_owner_table slot count
    pmm_stats := { st.pmm_stats with
      free_pages := st.pmm_stats.free_pages + count
      allocated_pages := st.pmm_stats.allocated_pages - count } }

def auPmmngrReleasePage (st : State) (phys : UInt64) : Except Fatal (State × Bool) :=
  if badAddress st phys then .ok (st, false)
  else
    let page := phys.toNat / PAGE_SIZE
    let d := st.page_desc page
    if isAllocHead st page ∧ d.order = 0 ∧ d.requested_pages = 1 ∧ d.refcount ≠ 0 then
      let st := st.setDesc page { d with refcount := d.refcount - 1 }
      if d.refcount - 1 = 0 then do
        let st ← releaseBlock st page 0
        .ok (accountRelease st d.owner_slot 1, true)
      else .ok (st, true)
    else .ok (st, false)

def auPmmngrReleasePages (st : State) (phys : UInt64) : Except Fatal (State × Bool) :=
  if badAddress st phys then .ok (st, false)
  else
    let head := phys.toNat / PAGE_SIZE
    let d := st.page_desc head
    if isAllocHead st head ∧ d.requested_pages ≠ 0 ∧
        ∀ i < 2 ^ d.order, (st.page_desc (head + i)).refcount = 1 then do
      let st ← releaseBlock st head d.order
      .ok (accountRelease st d.owner_slot (2 ^ d.order), true)
    else .ok (st, false)

def auPmmngrRetainPage (st : State) (phys : UInt64) : State × Bool :=
  if badAddress st phys then (st, false)
  else
    let page := phys.toNat / PAGE_SIZE
    let d := st.page_desc page
    if isAllocHead st page ∧ d.order = 0 ∧ d.refcount ≠ 65535 then
      (st.setDesc page { d with refcount := d.refcount + 1 }, true)
    else (st, false)

def auPmmngrSetBackingBlock (st : State) (phys : UInt64) (block : ℤ) : State × Bool :=
  if badAddress st phys then (st, false)
  else
    let page := phys.toNat / PAGE_SIZE
    let d := st.page_desc page
    if d.state = .allocHead ∧ d.order = 0 then
      (st.setDesc page { d with backing_block := block }, true)
    else (st, false)

/-- What the callers hold: the heads and orders of the blocks they were given and did not
give back yet, and how many references they have to each. -/
structure Machine where
  pmm : State
  held : List (ℕ × ℕ) := []
  refs : ℕ → ℕ := fun _ => 0
  halted : Option Fatal := none

inductive Act
  | alloc (pages alignment : UInt32) (ceiling : UInt64) (type : UInt8) (owner : ℤ)
  | releasePage (phys : UInt64)
  | releasePages (phys : UInt64)
  | retainPage (phys : UInt64)
  | setBackingBlock (phys : UInt64) (block : ℤ)
  | validate
  deriving DecidableEq, Repr

/-- A caller is given the block at `phys`, unless there was none. -/
def Machine.take (s : Machine) (pmm : State) (phys order : ℕ) : Machine :=
  if phys = PMM_INVALID_PHYS then { s with pmm }
  else { s with
    pmm
    held := (phys / PAGE_SIZE, order) :: s.held
    refs := Function.update s.refs (phys / PAGE_SIZE) 1 }

/-- A caller gave back a reference to the block at `phys`; the block goes with the last. -/
def Machine.giveBack (s : Machine) (pmm : State) (phys : UInt64) : Machine :=
  let head := phys.toNat / PAGE_SIZE
  { s with
    pmm
    held := if s.refs head = 1 then s.held.filter (·.1 ≠ head) else s.held
    refs := Function.update s.refs head (s.refs head - 1) }

def Machine.share (s : Machine) (pmm : State) (phys : UInt64) : Machine :=
  let head := phys.toNat / PAGE_SIZE
  { s with pmm, refs := Function.update s.refs head (s.refs head + 1) }

def step (s : Machine) (a : Act) : Machine :=
  if s.halted.isSome then s
  else
    match a with
    | .alloc pages alignment ceiling type owner =>
      match auPmmngrAllocPagesForOwner s.pmm pages alignment ceiling type owner with
      | .error e => { s with halted := some e }
      | .ok (pmm, phys) => s.take pmm phys (orderForPages pages.toNat)
    | .releasePage phys =>
      match auPmmngrReleasePage s.pmm phys with
      | .error e => { s with halted := some e }
      | .ok (pmm, ok) => if ok then s.giveBack pmm phys else { s with pmm }
    | .releasePages phys =>
      match auPmmngrReleasePages s.pmm phys with
      | .error e => { s with halted := some e }
      | .ok (pmm, ok) => if ok then s.giveBack pmm phys else { s with pmm }
    | .retainPage phys =>
      let (pmm, ok) := auPmmngrRetainPage s.pmm phys
      if ok then s.share pmm phys else { s with pmm }
    | .setBackingBlock phys block => { s with pmm := (auPmmngrSetBackingBlock s.pmm phys block).1 }
    | .validate => { s with pmm := (auPmmngrValidate s.pmm).1 }

/-- The free blocks of an order, as a walk along their list meets them. -/
def freeBlocks (st : State) (order : ℕ) : List ℕ :=
  walk PMM_NO_PAGE (fun p => (st.page_desc p).next) st.total_pages (st.free_head order)

/-- The pages that nobody may be given. -/
def keptBack (info : KernelBootInfo) (plan : Plan) (p : ℕ) : Prop :=
  p < 0x100 ∨ (∃ a ∈ info.reserved_mem, p = (a >>> 12).toNat) ∨ inRange plan.metadata p ∨
    match info.boot with
    | .littleboot (some lb) =>
      inRange ⟨(lb.device_tree_base >>> 12).toNat,
          (alignUp lb.device_tree_end 4096 >>> 12).toNat⟩ p ∨
        inRange ⟨(lb.initrd_start >>> 12).toNat, (alignUp lb.initrd_end 4096 >>> 12).toNat⟩ p ∨
        inRange ⟨(lb.littleBootStart >>> 12).toNat,
          (alignUp lb.littleBootEnd 4096 >>> 12).toNat⟩ p
    | _ => False

/-- The manager runs, its validation succeeds, and the blocks handed out lie apart from each
other, from the free blocks and from the pages kept back. -/
structure Sound (info : KernelBootInfo) (plan : Plan) (s : Machine) : Prop where
  running : s.halted = none
  valid : (auPmmngrValidate s.pmm).2 = true
  apart : s.held.Pairwise fun b c => Disjoint (block b.1 b.2) (block c.1 c.2)
  free : ∀ b ∈ s.held, ∀ order ≤ PMM_MAX_ORDER, ∀ h ∈ freeBlocks s.pmm order,
    Disjoint (block b.1 b.2) (block h order)
  kept : ∀ b ∈ s.held, ∀ p ∈ block b.1 b.2, ¬ keptBack info plan p

end Xeneva.Pmm
