import Xeneva.Base.Radix
import Xeneva.Base.Run

/-!
# Page tables

The tables are in physical memory, each under its physical address, which the code reaches
through the direct map. `trail` from a root over the four indices of an address are the
descriptors that the hardware walk meets; `translate` is what it makes of them.
-/

namespace Xeneva.Vmm
open Base Base.Radix

def PTE_VALID : BitVec 64 := 0x1
def PTE_TABLE : BitVec 64 := 0x2
def PTE_AP_RW : BitVec 64 := 0x0
def PTE_AP_RW_USER : BitVec 64 := 0x40
def PTE_SH_INNER : BitVec 64 := 0x300
def PTE_AF : BitVec 64 := 0x400
def PTE_USER_NOT_EXECUTABLE : BitVec 64 := 0x40000000000000
def PAGE_SIZE : BitVec 64 := 0x1000
def PAGE_MASK : BitVec 64 := 0xFFF
def VMM_PHYS_MASK : BitVec 64 := 0x0000FFFFFFFFF000
def PHYSICAL_MEM_BASE : BitVec 64 := 0xFFFF800000000000
def PMM_INVALID_PHYS : BitVec 64 := 0xFFFFFFFFFFFFFFFF

abbrev Mem := BitVec 64 → BitVec 9 → BitVec 64

def p2v (addr : BitVec 64) : BitVec 64 := PHYSICAL_MEM_BASE + addr

def v2p (addr : BitVec 64) : BitVec 64 := addr - PHYSICAL_MEM_BASE

def pml4Index (virt : BitVec 64) : BitVec 9 := (virt >>> 39).setWidth 9
def pdptIndex (virt : BitVec 64) : BitVec 9 := (virt >>> 30).setWidth 9
def pdIndex (virt : BitVec 64) : BitVec 9 := (virt >>> 21).setWidth 9
def ptIndex (virt : BitVec 64) : BitVec 9 := (virt >>> 12).setWidth 9

/-- The way to the last table, without the index in it. -/
def dirPath (virt : BitVec 64) : List (BitVec 9) := [pml4Index virt, pdptIndex virt, pdIndex virt]

def pagePath (virt : BitVec 64) : List (BitVec 9) := dirPath virt ++ [ptIndex virt]

def valid (desc : BitVec 64) : Bool := desc &&& PTE_VALID ≠ 0

/-- The table a descriptor points to; a block points to none. -/
def next (desc : BitVec 64) : Option (BitVec 64) :=
  if desc &&& (PTE_VALID ||| PTE_TABLE) = PTE_VALID ||| PTE_TABLE then some (desc &&& VMM_PHYS_MASK)
  else none

/-- A block of `size` bytes maps the page at its place in the block. -/
def blockPage (size desc virt : BitVec 64) : BitVec 64 :=
  (desc &&& VMM_PHYS_MASK &&& ~~~(size - 1)) ||| (virt &&& (size - 1) &&& ~~~PAGE_MASK)

/-- The page that the descriptors of a walk stand for. -/
def decode (virt : BitVec 64) : List (BitVec 64) → Option (BitVec 64)
  | [_, desc] => if valid desc then some (blockPage 0x40000000 desc virt) else none
  | [_, _, desc] => if valid desc then some (blockPage 0x200000 desc virt) else none
  | [_, _, _, desc] => if valid desc then some (desc &&& VMM_PHYS_MASK) else none
  | _ => none

/-- The physical page of the virtual page of an address. -/
def translate (mem : Mem) (root virt : BitVec 64) : Option (BitVec 64) :=
  decode virt (trail next mem root (pagePath virt))

/-! ## The functions -/

def vmmGetLeaf (mem : Mem) (root virt : BitVec 64) : Option (BitVec 64 × BitVec 9) :=
  (walk next mem root (dirPath virt)).map fun table => (table, ptIndex virt)

def vmmPrepareTable (mem : Mem) (page : BitVec 64) : Option Mem :=
  if page = PMM_INVALID_PHYS then none else some (fill mem page 0)

/-- What the two map functions do at each level above the last: the table that the entry points
to, or a new one in `page`. -/
def vmmTable (flags page : BitVec 64) (mem : Mem) (table : BitVec 64) (i : BitVec 9) :
    Mem × Option (BitVec 64) :=
  if valid (mem table i) then (mem, some (mem table i &&& ~~~PAGE_MASK))
  else match vmmPrepareTable mem page with
    | none => (mem, none)
    | some mem =>
      let mem := write mem table i ((page &&& ~~~PAGE_MASK) ||| flags)
      (mem, some (mem table i &&& ~~~PAGE_MASK))

/-- The function goes on when there is a table. -/
def withTable (o : Mem × Option (BitVec 64)) (f : Mem → BitVec 64 → Mem × Bool) : Mem × Bool :=
  match o.2 with
  | none => (o.1, false)
  | some table => f o.1 table

/-- The last level: an occupied entry stays as it is. -/
def vmmSetPage (phys flags : BitVec 64) (mem : Mem) (pml1 : BitVec 64) (i1 : BitVec 9) :
    Mem × Bool :=
  if valid (mem pml1 i1) then (mem, false)
  else (write mem pml1 i1 ((phys &&& ~~~PAGE_MASK) ||| flags), true)

/-- A descriptor for which `AuMapPage` gives up: not a physical address, or a block. -/
def vmmRefused (desc : BitVec 64) : Bool :=
  (valid desc ∧ desc &&& 0x0000FF0000000000 ≠ 0) ∨ desc &&& 0x3 = PTE_VALID

def mapFlags (attrib : BitVec 8) : BitVec 64 :=
  let attrib := attrib.setWidth 64
  if attrib &&& PTE_AP_RW_USER ≠ 0 then
    PTE_VALID ||| PTE_TABLE ||| PTE_AF ||| PTE_SH_INNER ||| attrib
  else PTE_VALID ||| PTE_TABLE ||| PTE_AF ||| PTE_SH_INNER ||| PTE_AP_RW ||| attrib

def mapFlagsEx (attrib : BitVec 8) : BitVec 64 :=
  let attrib := attrib.setWidth 64
  if attrib &&& PTE_AP_RW_USER ≠ 0 then
    PTE_VALID ||| PTE_TABLE ||| PTE_AF ||| PTE_SH_INNER ||| PTE_AP_RW_USER ||| attrib
  else PTE_VALID ||| PTE_TABLE ||| PTE_AF ||| PTE_SH_INNER ||| PTE_AP_RW ||| attrib

/-- `pages` is what `AuPmmngrAllocPage` returns at each level that asks it. -/
def auMapPage (mem : Mem) (root phys virt : BitVec 64) (attrib : BitVec 8)
    (pages : Fin 3 → BitVec 64) : Mem × Bool :=
  let flags := PTE_VALID ||| PTE_TABLE
  withTable (vmmTable flags (pages 0) mem root (pml4Index virt)) fun mem pml3 =>
  withTable (vmmTable flags (pages 1) mem pml3 (pdptIndex virt)) fun mem pml2 =>
  if vmmRefused (mem pml3 (pdptIndex virt)) then (mem, false)
  else withTable (vmmTable flags (pages 2) mem pml2 (pdIndex virt)) fun mem pml1 =>
  if vmmRefused (mem pml2 (pdIndex virt)) then (mem, false)
  else vmmSetPage phys (mapFlags attrib) mem pml1 (ptIndex virt)

def auMapPageEx (mem : Mem) (root phys virt : BitVec 64) (attrib : BitVec 8)
    (pages : Fin 3 → BitVec 64) : Mem × Bool :=
  let flags := PTE_VALID ||| PTE_TABLE ||| PTE_AF
  withTable (vmmTable flags (pages 0) mem root (pml4Index virt)) fun mem pml3 =>
  withTable (vmmTable flags (pages 1) mem pml3 (pdptIndex virt)) fun mem pml2 =>
  withTable (vmmTable flags (pages 2) mem pml2 (pdIndex virt)) fun mem pml1 =>
  vmmSetPage phys (mapFlagsEx attrib) mem pml1 (ptIndex virt)

/-- The lookup follows a valid entry without asking what kind it is. -/
def vmmFollow (mem : Mem) (table : BitVec 64) (i : BitVec 9) : Option (BitVec 64) :=
  if valid (mem table i) then some (mem table i &&& ~~~PAGE_MASK) else none

/-- `NULL` is zero. -/
def auGetPhysicalAddressEx (mem : Mem) (root virt : BitVec 64) : BitVec 64 :=
  Option.getD (do
    let pdpt ← vmmFollow mem root (pml4Index virt)
    let pd ← vmmFollow mem pdpt (pdptIndex virt)
    let pt ← vmmFollow mem pd (pdIndex virt)
    let page ← vmmFollow mem pt (ptIndex virt)
    if p2v page ≠ 0 then some (v2p (p2v page)) else none) 0

/-- What is done to a mapped page through its entry: one turn of an unmap loop, or a change of
attributes. -/
def vmmEditPage (edit : BitVec 64 → BitVec 64) (mem : Mem) (root virt : BitVec 64) : Mem :=
  match vmmGetLeaf mem root virt with
  | some (table, i) =>
    if valid (mem table i) then write mem table i (edit (mem table i)) else mem
  | none => mem

def vmmEditPages (edit : BitVec 64 → BitVec 64) (root : BitVec 64 → BitVec 64) :
    ℕ → BitVec 64 → Mem → Mem
  | 0, _, mem => mem
  | n + 1, virt, mem =>
    vmmEditPages edit root n (virt + PAGE_SIZE) (vmmEditPage edit mem (root virt) virt)

/-- The number of pages of `AuFreePagesEx`. -/
def numPages (size : BitVec 64) : ℕ :=
  (size / PAGE_SIZE).toNat + if size % PAGE_SIZE ≠ 0 then 1 else 0

def auFreePagesEx (mem : Mem) (root virt size : BitVec 64) : Mem :=
  vmmEditPages (fun _ => 0) (fun _ => root) (numPages size) virt mem

def pageAlign (value : BitVec 64) : BitVec 64 :=
  if (PAGE_SIZE - 1) &&& value ≠ 0 then (value + PAGE_SIZE) &&& ~~~(PAGE_SIZE - 1) else value

/-- `UnmapMemMapping` takes the frame and the valid bit out of an entry and leaves the rest. -/
def unmapEntry (desc : BitVec 64) : BitVec 64 := desc &&& ~~~(VMM_PHYS_MASK ||| PTE_VALID)

/-- An entry whose attributes are set through an `AuVPage`. -/
def setAttributes (bits desc : BitVec 64) : BitVec 64 :=
  let frame := VMM_PHYS_MASK ||| PTE_VALID ||| PTE_TABLE
  (desc &&& frame) ||| (bits &&& ~~~frame)

structure State where
  mem : Mem
  ttbr0 : BitVec 64
  ttbr1 : BitVec 64

def isRangeInsideKernel (va : BitVec 64) : Bool := va ≥ 0xFFFF000000000000

def vmmCurrentRoot (s : State) (virt : BitVec 64) : BitVec 64 :=
  (if isRangeInsideKernel virt then s.ttbr1 else s.ttbr0) &&& VMM_PHYS_MASK

/-- The calls: of the two map functions, of `AuFreePagesEx`, `AuFreePages` and
`UnmapMemMapping`, a change of attributes, and a change of the current address space. -/
inductive Act
  | mapEx (root phys virt : BitVec 64) (attrib : BitVec 8) (pages : Fin 3 → BitVec 64)
  | map (phys virt : BitVec 64) (attrib : BitVec 8) (pages : Fin 3 → BitVec 64)
  | freeEx (root virt size : BitVec 64)
  | free (virt size : BitVec 64)
  | unmap (addr len : BitVec 64)
  | attributes (virt bits : BitVec 64)
  | switch (root : BitVec 64)

def step (s : State) : Act → State
  | .mapEx root phys virt attrib pages =>
    { s with mem := (auMapPageEx s.mem root phys virt attrib pages).1 }
  | .map phys virt attrib pages =>
    { s with mem := (auMapPage s.mem (vmmCurrentRoot s virt) phys virt attrib pages).1 }
  | .freeEx root virt size => { s with mem := auFreePagesEx s.mem root virt size }
  | .free virt size => { s with mem := auFreePagesEx s.mem (vmmCurrentRoot s virt) virt size }
  | .unmap addr len =>
    let pages := (pageAlign len / PAGE_SIZE).toNat
    { s with mem := vmmEditPages unmapEntry (vmmCurrentRoot s) pages addr s.mem }
  | .attributes virt bits =>
    { s with mem := vmmEditPage (setAttributes bits) s.mem (vmmCurrentRoot s virt) virt }
  | .switch root => { s with ttbr0 := root }

end Xeneva.Vmm

/-!
# The page tables of several address spaces

The address spaces share the tables of the kernel half, at the same place in each. What a new
table and a new page do to the tables and to what the hardware finds in them.
-/

namespace Xeneva.Vmm
open Base Base.Radix

variable {roots : List (BitVec 64)} {mem mem' : Mem} {root r t t' virt v page phys flags desc :
  BitVec 64} {p q : List (BitVec 9)} {i : BitVec 9}

/-- The bits above a physical address of 48 bits. -/
def HIGH_BITS : BitVec 64 := 0xFFFF000000000000

/-- The lookup finds the frame of the entry: no bit above it is set, and the frame is not the
one whose virtual address in the direct map is zero. -/
def Plain (desc : BitVec 64) : Prop :=
  desc &&& HIGH_BITS = 0 ∧ desc &&& VMM_PHYS_MASK ≠ 0x0000800000000000

instance (desc : BitVec 64) : Decidable (Plain desc) :=
  inferInstanceAs (Decidable (_ ∧ _))

/-- The page tables of the address spaces with the given roots. -/
structure Tables (roots : List (BitVec 64)) (mem : Mem) : Prop where
  forest : Forest next roots 3 mem
  dirs : ∀ r ∈ roots, ∀ p i t, p.length < 3 → walk next mem r p = some t →
    next (mem t i) ≠ none → mem t i &&& HIGH_BITS = 0
  top : ∀ r ∈ roots, ∀ i, valid (mem r i) → next (mem r i) ≠ none
  pages : ∀ r ∈ roots, ∀ p i t, p.length = 3 → walk next mem r p = some t →
    valid (mem t i) → Plain (mem t i)

/-- No block is on the way to the last table. -/
def Clear (mem : Mem) (root virt : BitVec 64) : Prop :=
  ∀ p i, p ++ [i] <+: dirPath virt → ∀ t, walk next mem root p = some t →
    valid (mem t i) → next (mem t i) ≠ none

/-- The address of a page, which is in no use as a table. -/
structure Spare (roots : List (BitVec 64)) (mem : Mem) (page : BitVec 64) : Prop where
  aligned : page &&& VMM_PHYS_MASK = page
  unreached : Unreached next roots 3 mem page

/-! ## Descriptors -/

/-- Attributes that fit below the frame and say table. -/
structure TableFlags (flags : BitVec 64) : Prop where
  low : flags &&& ~~~PAGE_MASK = 0
  table : flags &&& (PTE_VALID ||| PTE_TABLE) = PTE_VALID ||| PTE_TABLE

theorem and_of_and {x m k : BitVec 64} (h : x &&& m = x) (hk : m &&& k = 0) : x &&& k = 0 := by
  rw [← h, BitVec.and_assoc, hk]
  simp

theorem and_zero_of_sub {x m k : BitVec 64} (h : x &&& m = 0) (hk : m &&& k = k) :
    x &&& k = 0 := by
  rw [← hk, ← BitVec.and_assoc, h]
  simp

theorem next_eq_some (h : next desc ≠ none) : next desc = some (desc &&& VMM_PHYS_MASK) := by
  unfold next at h ⊢
  split at h
  · next hd => rw [if_pos hd]
  · exact absurd rfl h

theorem valid_of_table (h : desc &&& (PTE_VALID ||| PTE_TABLE) = PTE_VALID ||| PTE_TABLE) :
    valid desc = true := by
  unfold valid
  have hv : desc &&& PTE_VALID = PTE_VALID := by
    have hs : (PTE_VALID ||| PTE_TABLE) &&& PTE_VALID = PTE_VALID := by decide
    rw [← hs, ← BitVec.and_assoc, h]
  rw [hv]
  decide

theorem valid_of_next (h : next desc ≠ none) : valid desc = true := by
  unfold next at h
  split at h
  · next hd => exact valid_of_table hd
  · exact absurd rfl h

theorem next_of_not_valid (h : ¬valid desc) : next desc = none := by
  by_contra hn
  exact h (valid_of_next hn)

theorem not_valid_zero : ¬valid 0 := by decide

theorem next_zero : next 0 = none := by decide

/-- Without high bits, following a descriptor leads to its frame. -/
theorem follow_eq (h : desc &&& HIGH_BITS = 0) : desc &&& ~~~PAGE_MASK = desc &&& VMM_PHYS_MASK := by
  have hs : ~~~PAGE_MASK = VMM_PHYS_MASK ||| HIGH_BITS := by decide
  rw [hs, BitVec.and_or_distrib_left, h]
  simp

namespace TableFlags

variable (hf : TableFlags flags)
include hf

theorem and_or (phys mask : BitVec 64) (hm : ~~~PAGE_MASK &&& mask = mask) :
    ((phys &&& ~~~PAGE_MASK) ||| flags) &&& mask = phys &&& mask := by
  have hz : flags &&& mask = 0 := and_zero_of_sub hf.low hm
  rw [BitVec.and_or_distrib_right, hz, BitVec.and_assoc, hm]
  simp

theorem table_bits (phys : BitVec 64) :
    ((phys &&& ~~~PAGE_MASK) ||| flags) &&& (PTE_VALID ||| PTE_TABLE) =
      PTE_VALID ||| PTE_TABLE := by
  have hz : ~~~PAGE_MASK &&& (PTE_VALID ||| PTE_TABLE) = 0 := by decide
  rw [BitVec.and_or_distrib_right, BitVec.and_assoc, hz, hf.table]
  simp

theorem valid (phys : BitVec 64) : Vmm.valid ((phys &&& ~~~PAGE_MASK) ||| flags) = true :=
  valid_of_table (hf.table_bits phys)

theorem frame (phys : BitVec 64) :
    ((phys &&& ~~~PAGE_MASK) ||| flags) &&& VMM_PHYS_MASK = phys &&& VMM_PHYS_MASK :=
  hf.and_or phys _ (by decide)

theorem high (phys : BitVec 64) :
    ((phys &&& ~~~PAGE_MASK) ||| flags) &&& HIGH_BITS = phys &&& HIGH_BITS :=
  hf.and_or phys _ (by decide)

theorem next (h : page &&& VMM_PHYS_MASK = page) :
    Vmm.next ((page &&& ~~~PAGE_MASK) ||| flags) = some page := by
  unfold Vmm.next
  rw [if_pos (hf.table_bits page), hf.frame, h]

theorem follow (h : page &&& VMM_PHYS_MASK = page) :
    ((page &&& ~~~PAGE_MASK) ||| flags) &&& ~~~PAGE_MASK = page := by
  have hh : page &&& HIGH_BITS = 0 := and_of_and h (by decide)
  rw [follow_eq ((hf.high page).trans hh), hf.frame, h]

end TableFlags

theorem mapFlags_table (attrib : BitVec 8) : TableFlags (mapFlags attrib) := by
  have h : ∀ attrib : BitVec 8, mapFlags attrib &&& ~~~PAGE_MASK = 0 ∧
      mapFlags attrib &&& (PTE_VALID ||| PTE_TABLE) = PTE_VALID ||| PTE_TABLE := by
    decide +kernel
  exact ⟨(h attrib).1, (h attrib).2⟩

theorem mapFlagsEx_table (attrib : BitVec 8) : TableFlags (mapFlagsEx attrib) := by
  have h : ∀ attrib : BitVec 8, mapFlagsEx attrib &&& ~~~PAGE_MASK = 0 ∧
      mapFlagsEx attrib &&& (PTE_VALID ||| PTE_TABLE) = PTE_VALID ||| PTE_TABLE := by
    decide +kernel
  exact ⟨(h attrib).1, (h attrib).2⟩

theorem decode_concat_invalid (l : List (BitVec 64)) (h : ¬valid desc) :
    decode virt (l ++ [desc]) = none := by
  match l with
  | [] => rfl
  | [_] => simp [decode, h]
  | [_, _] => simp [decode, h]
  | [_, _, _] => simp [decode, h]
  | _ :: _ :: _ :: _ :: l => cases l <;> rfl

theorem decode_page {l : List (BitVec 64)} (hl : l.length = 3) :
    decode virt (l ++ [desc]) =
      if valid desc then some (desc &&& VMM_PHYS_MASK) else none := by
  match l with
  | [_, _, _] => rfl

@[simp] theorem dirPath_length (virt : BitVec 64) : (dirPath virt).length = 3 := rfl

@[simp] theorem pagePath_length (virt : BitVec 64) : (pagePath virt).length = 4 := rfl

/-- With a last table the entry in it decides. -/
theorem translate_of_leaf (h : walk next mem root (dirPath virt) = some t) :
    translate mem root virt =
      if valid (mem t (ptIndex virt)) then some (mem t (ptIndex virt) &&& VMM_PHYS_MASK)
      else none := by
  have ht : trail next mem root (pagePath virt) =
      trail next mem root (dirPath virt) ++ [mem t (ptIndex virt)] := by
    unfold pagePath
    rw [trail_append h]
    simp only [trail]
    split <;> rfl
  unfold translate
  rw [ht, decode_page (by rw [trail_length h, dirPath_length])]

theorem pagePath_inj (h : pagePath virt = pagePath v) :
    dirPath virt = dirPath v ∧ ptIndex virt = ptIndex v := by
  unfold pagePath at h
  have h' := List.append_inj h rfl
  exact ⟨h'.1, List.head_eq_of_cons_eq h'.2⟩

/-- Only a page at the same place in the same table goes through its entry. -/
theorem through_page_iff : Through next mem t (dirPath virt) (ptIndex virt) r (pagePath v) ↔
    pagePath v = pagePath virt ∧ walk next mem r (dirPath virt) = some t := by
  unfold Through
  apply and_congr_left'
  constructor
  · intro h
    exact (h.eq_of_length rfl).symm
  · intro h
    rw [h]
    exact List.prefix_refl _

theorem Tables.write_page (ht : Tables roots mem) (hr : root ∈ roots)
    (hw : walk next mem root (dirPath virt) = some t) (hd : valid desc → Plain desc) :
    Tables roots (write mem t (ptIndex virt) desc) := by
  have hentry : ∀ r' ∈ roots, ∀ (q : List (BitVec 9)) (t' : BitVec 64), q.length ≤ 3 →
      walk next (write mem t (ptIndex virt) desc) r' q = some t' → ∀ j,
        walk next mem r' q = some t' ∧
          (write mem t (ptIndex virt) desc t' j = mem t' j ∨
            (q = dirPath virt ∧ write mem t (ptIndex virt) desc t' j = desc)) :=
    fun r' hr' q t' hq => ht.forest.entry_write hr (dirPath_length virt) hw hr' hq
  constructor
  · exact ht.forest.forest_write hr rfl hw
  · intro r' hr' p i t' hp hw'
    obtain ⟨hw', he | ⟨hpd, _⟩⟩ := hentry r' hr' p t' hp.le hw' i
    · rw [he]
      exact ht.dirs r' hr' p i t' hp hw'
    · rw [hpd] at hp
      exact absurd hp (by simp)
  · intro r' hr' i
    obtain ⟨_, he | ⟨hpd, _⟩⟩ := hentry r' hr' [] r' (Nat.zero_le 3) rfl i
    · rw [he]
      exact ht.top r' hr' i
    · exact absurd hpd (by simp [dirPath])
  · intro r' hr' p i t' hp hw'
    obtain ⟨hw', he | ⟨_, he⟩⟩ := hentry r' hr' p t' hp.le hw' i
    · rw [he]
      exact ht.pages r' hr' p i t' hp hw'
    · rw [he]
      exact hd

/-- The pages that share the entry get what it says; all other pages keep what they had. -/
theorem Tables.translate_write (ht : Tables roots mem) (hr : root ∈ roots)
    (hw : walk next mem root (dirPath virt) = some t) (hr' : r ∈ roots) (v : BitVec 64) :
    translate (write mem t (ptIndex virt) desc) r v =
      if pagePath v = pagePath virt ∧ walk next mem r (dirPath virt) = some t then
        if valid desc then some (desc &&& VMM_PHYS_MASK) else none
      else translate mem r v := by
  split
  · next hc =>
    obtain ⟨hd, hi⟩ := pagePath_inj hc.1
    have hwalk : walk next (write mem t (ptIndex virt) desc) r (dirPath v) = some t := by
      rw [ht.forest.walk_write_last hr rfl hw hr' (by simp), hd]
      exact hc.2
    rw [translate_of_leaf hwalk, hi, write_self]
  · next hc =>
    unfold translate
    rw [ht.forest.trail_write hr (by simp) hw hr' (by simp)]
    rw [through_page_iff]
    exact hc

/-! ## A new table -/

/-- The two memories stand for the same address spaces. -/
structure Same (roots : List (BitVec 64)) (mem mem' : Mem) : Prop where
  tables : Tables roots mem'
  translate : ∀ r ∈ roots, ∀ virt, translate mem' r virt = Vmm.translate mem r virt
  clear : ∀ r ∈ roots, ∀ virt, Clear mem r virt → Clear mem' r virt

theorem Same.refl (ht : Tables roots mem) : Same roots mem mem :=
  ⟨ht, fun _ _ _ => rfl, fun _ _ _ => id⟩

/-- Linking in an empty table. -/
theorem Tables.link_same (ht : Tables roots mem)
    (hl : Links next roots 3 mem 0 root t p i page desc)
    (hh : desc &&& HIGH_BITS = 0) (hv : ¬valid (mem t i)) :
    Same roots mem (link mem 0 t i page desc) := by
  have hd : next desc ≠ none := by
    rw [hl.points]
    simp
  constructor
  · constructor
    · exact hl.forest_link
    · intro r hr q j t' hq hw hn
      obtain ⟨hw', he⟩ | ⟨_, he⟩ | he := hl.entry_cases hr hq.le hw j
      · rw [he] at hn ⊢
        exact ht.dirs r hr q j t' hq hw' hn
      · rw [he]
        exact hh
      · rw [he] at hn
        exact absurd next_zero hn
    · intro r hr j hvj
      have hr0 : walk next (link mem 0 t i page desc) r [] = some r := rfl
      obtain ⟨_, he⟩ | ⟨_, he⟩ | he := hl.entry_cases (q := []) hr (Nat.zero_le 3) hr0 j
      · rw [he] at hvj ⊢
        exact ht.top r hr j hvj
      · rw [he]
        exact hd
      · rw [he] at hvj
        exact absurd hvj not_valid_zero
    · intro r hr q j t' hq hw hvj
      obtain ⟨hw', he⟩ | ⟨hqp, _⟩ | he := hl.entry_cases hr hq.le hw j
      · rw [he] at hvj ⊢
        exact ht.pages r hr q j t' hq hw' hvj
      · have hs := hl.short
        rw [← hqp, hq] at hs
        exact absurd hs (lt_irrefl 3)
      · rw [he] at hvj
        exact absurd hvj not_valid_zero
  · intro r hr virt
    unfold Vmm.translate
    by_cases hn : Through next mem t p i r (pagePath virt)
    · obtain ⟨⟨s, hs⟩, hw⟩ := hn
      cases s with
      | nil =>
        have hlen := congrArg List.length hs
        have hsh := hl.short
        simp only [List.append_nil, List.length_append, List.length_singleton,
          pagePath_length] at hlen
        omega
      | cons j s =>
        -- the page was not mapped, and the new table is empty
        rw [← hs, hl.trail_before hw, hl.trail_after hr hw, decode_concat_invalid _ hv]
        have hz : ∀ l : List (BitVec 64), l ++ [desc, 0] = (l ++ [desc]) ++ [0] := by simp
        rw [hz, decode_concat_invalid _ not_valid_zero]
    · rw [hl.trail_other hr (by simp) hn]
  · intro r hr virt hc q j hq t' hw hvj
    have hlen : q.length ≤ 3 := by
      have h := hq.length_le
      simp only [List.length_append, List.length_singleton, dirPath_length] at h
      omega
    obtain ⟨hw', he⟩ | ⟨_, he⟩ | he := hl.entry_cases hr hlen hw j
    · rw [he] at hvj ⊢
      exact hc q j hq t' hw' hvj
    · rw [he]
      exact hd
    · rw [he] at hvj
      exact absurd hvj not_valid_zero

/-- What `vmmTable` does: no frame, the table that is there, a block, or a new table. -/
theorem vmmTable_cases (hf : TableFlags flags) (ht : Tables roots mem) (hr : root ∈ roots)
    (hp : p.length < 3) (hw : walk next mem root p = some t)
    (hs : page ≠ PMM_INVALID_PHYS → Spare roots mem page) :
    vmmTable flags page mem t i = (mem, none) ∨
      (∃ u, vmmTable flags page mem t i = (mem, some u) ∧ next (mem t i) = some u) ∨
      (∃ u, vmmTable flags page mem t i = (mem, some u) ∧ valid (mem t i) ∧
        next (mem t i) = none) ∨
      ∃ d, vmmTable flags page mem t i = (link mem 0 t i page d, some page) ∧
        Links next roots 3 mem 0 root t p i page d ∧ d &&& HIGH_BITS = 0 ∧ ¬valid (mem t i) := by
  unfold vmmTable
  by_cases hv : valid (mem t i)
  · rw [if_pos hv]
    cases hn : next (mem t i) with
    | none => exact Or.inr (Or.inr (Or.inl ⟨_, rfl, hv, rfl⟩))
    | some u =>
      have hne : next (mem t i) ≠ none := by simp [hn]
      have hu : mem t i &&& VMM_PHYS_MASK = u := by
        rw [next_eq_some hne] at hn
        exact Option.some.inj hn
      refine Or.inr (Or.inl ⟨u, ?_, rfl⟩)
      rw [follow_eq (ht.dirs root hr p i t hp hw hne), hu]
  · rw [if_neg hv]
    unfold vmmPrepareTable
    by_cases hi : page = PMM_INVALID_PHYS
    · rw [if_pos hi]
      exact Or.inl rfl
    · rw [if_neg hi]
      obtain ⟨ha, hu⟩ := hs hi
      refine Or.inr (Or.inr (Or.inr ⟨(page &&& ~~~PAGE_MASK) ||| flags, ?_, ?_, ?_, hv⟩))
      · dsimp only
        rw [write_self, hf.follow ha]
        rfl
      · exact ⟨ht.forest, hr, hp, hw, next_of_not_valid hv, hu, next_zero, hf.next ha⟩
      · rw [hf.high]
        exact and_of_and ha (by decide)

end Xeneva.Vmm
