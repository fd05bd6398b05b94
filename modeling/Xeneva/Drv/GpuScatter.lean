import Xeneva.Base.Scatter
import Xeneva.Drv.GpuProxy

/-!
# Copying a rectangle

A rectangle of the console's buffer is copied into the memory that the server of the display has
given, which lies in several pieces. The sizes are those of the machine here. The console's
buffer belongs to the kernel and is no part of the server's memory.
-/

namespace Xeneva.Gpu.Scatter
open Base

def GPUSRV_MAX_DIM : UInt32 := 4096

abbrev Memory := ℕ → UInt8

/-- `buffer` is an address, and `pixels` are the bytes behind it. -/
structure AuConsole where
  width : UInt32
  height : UInt32
  buffer : UInt64
  pixels : ℕ → UInt8
  bpp : UInt32
  size : UInt32
  pitch : UInt32

/-- The offset of the rectangle, if its last visible byte is inside. -/
def gpuExtent (pitch x y width height : UInt32) (capacity : UInt64) : Option UInt64 :=
  let row_bytes := width.toUInt64 * 4
  let x_bytes := x.toUInt64 * 4
  let last_row := y.toUInt64 + height.toUInt64 - 1
  if pitch = 0 ∨ width = 0 ∨ height = 0 ∨ x_bytes > pitch.toUInt64 ∨
      row_bytes > pitch.toUInt64 - x_bytes ∨ last_row > capacity / pitch.toUInt64 then none
  else
    let last := last_row * pitch.toUInt64
    if x_bytes > capacity - last ∨ row_bytes > capacity - last - x_bytes then none
    else some (y.toUInt64 * pitch.toUInt64 + x_bytes)

def gpuSource (aucon : Option AuConsole) : Option AuConsole :=
  aucon.filter fun source =>
    source.buffer ≠ 0 ∧ source.bpp = 32 ∧ source.width ≠ 0 ∧ source.height ≠ 0 ∧
      source.width ≤ GPUSRV_MAX_DIM ∧ source.height ≤ GPUSRV_MAX_DIM ∧
      source.buffer ≤ 0xFFFFFFFFFFFFFFFF - source.size.toUInt64 ∧
      (gpuExtent source.pitch 0 0 source.width source.height source.size.toUInt64).isSome

/-- What the server has given. -/
structure Display where
  gpu_backing : List GpuSrvBacking
  gpu_backing_bytes : UInt64
  gpu_width : UInt32
  gpu_height : UInt32
  gpu_pitch : UInt32

structure GpuSrvFrame where
  x : UInt32
  y : UInt32
  width : UInt32
  height : UInt32

/-- The loop over the pieces; `input` is what is left of the text. -/
def backingLoop (bytes : ℕ) : List GpuSrvBacking → ℕ → ℕ → List UInt8 → Memory → Memory × Bool
  | [], _, _, input, mem => (mem, input.isEmpty)
  | b :: bs, cursor, offset, input, mem =>
    if input = [] then (mem, true)
    else if b.length > bytes - cursor then (mem, false)
    else
      let entry_end := cursor + b.length
      if offset ≥ entry_end then backingLoop bytes bs entry_end offset input mem
      else
        let within := if offset > cursor then offset - cursor else 0
        let available := b.length - within
        let take := if available < input.length then available else input.length
        backingLoop bytes bs entry_end (offset + take) (input.drop take)
          (memcpy mem (b.phys + within) (input.take take))

def gpuCopyIntoBacking (d : Display) (mem : Memory) (offset : ℕ) (src : List UInt8) :
    Memory × Bool :=
  let bytes := d.gpu_backing_bytes.toNat
  if src = [] ∨ offset > bytes ∨ src.length > bytes - offset then (mem, false)
  else backingLoop bytes d.gpu_backing 0 offset src mem

/-- `n` rows are left. -/
def copyRows (d : Display) (source : AuConsole) (src_offset dst_offset row_bytes : ℕ) :
    ℕ → ℕ → Memory → Memory × Bool
  | 0, _, mem => (mem, true)
  | n + 1, row, mem =>
    let src := memread source.pixels ((src_offset + row * source.pitch.toNat) % 2 ^ 64) row_bytes
    let (mem, ok) := gpuCopyIntoBacking d mem ((dst_offset + row * d.gpu_pitch.toNat) % 2 ^ 64) src
    if !ok then (mem, false) else copyRows d source src_offset dst_offset row_bytes n (row + 1) mem

def gpuCopyRect (d : Display) (aucon : Option AuConsole) (frame : GpuSrvFrame) (mem : Memory) :
    Memory × Bool :=
  match gpuSource aucon with
  | none => (mem, false)
  | some source =>
    if source.width ≠ d.gpu_width ∨ source.height ≠ d.gpu_height ∨ d.gpu_pitch = 0 then
      (mem, false)
    else if frame.width = 0 ∨ frame.height = 0 ∨ frame.x ≥ d.gpu_width ∨ frame.y ≥ d.gpu_height ∨
        frame.width > d.gpu_width - frame.x ∨ frame.height > d.gpu_height - frame.y then
      (mem, false)
    else
      match gpuExtent source.pitch frame.x frame.y frame.width frame.height source.size.toUInt64,
          gpuExtent d.gpu_pitch frame.x frame.y frame.width frame.height d.gpu_backing_bytes with
      | some src_offset, some dst_offset =>
        copyRows d source src_offset.toNat dst_offset.toNat (frame.width.toNat * 4)
          frame.height.toNat 0 mem
      | _, _ => (mem, false)

/-! ## The rectangle -/

/-- Byte `a` of a buffer belongs to the rectangle. -/
def Touches (pitch x y width height a : ℕ) : Prop :=
  ∃ row < height, ∃ col < width * 4, a = (y + row) * pitch + x * 4 + col

/-- Some rectangle, rows that do not run over their line, and all bytes inside. -/
def Inside (pitch x y width height capacity : ℕ) : Prop :=
  0 < pitch ∧ 0 < width ∧ 0 < height ∧ x * 4 + width * 4 ≤ pitch ∧
    ∀ a, Touches pitch x y width height a → a < capacity

theorem inside_iff {pitch x y width height capacity : ℕ} :
    Inside pitch x y width height capacity ↔
      0 < pitch ∧ 0 < width ∧ 0 < height ∧ x * 4 + width * 4 ≤ pitch ∧
        (y + height - 1) * pitch + x * 4 + width * 4 ≤ capacity := by
  unfold Inside
  constructor
  · rintro ⟨hp, hw, hh, hrow, hall⟩
    have hlast := hall ((y + height - 1) * pitch + x * 4 + (width * 4 - 1))
      ⟨height - 1, by omega, width * 4 - 1, by omega, by rw [← Nat.add_sub_assoc hh]⟩
    exact ⟨hp, hw, hh, hrow, by omega⟩
  · rintro ⟨hp, hw, hh, hrow, hlast⟩
    refine ⟨hp, hw, hh, hrow, ?_⟩
    rintro a ⟨row, hrh, col, hcol, rfl⟩
    have hle : (y + row) * pitch ≤ (y + height - 1) * pitch :=
      Nat.mul_le_mul_right pitch (by omega)
    omega

theorem eq_zero_iff (a : UInt32) : a = 0 ↔ a.toNat = 0 := by
  rw [← UInt32.toNat_inj]
  rfl

theorem bytes_toNat (a : UInt32) : (a.toUInt64 * 4).toNat = a.toNat * 4 := by
  have h := a.toNat_lt
  rw [UInt64.toNat_mul, UInt32.toNat_toUInt64]
  apply Nat.mod_eq_of_lt
  change a.toNat * 4 < _
  omega

theorem lastRow_toNat (y height : UInt32) (h : 0 < height.toNat) :
    (y.toUInt64 + height.toUInt64 - 1).toNat = y.toNat + height.toNat - 1 := by
  have hy := y.toNat_lt
  have hh := height.toNat_lt
  have hsum : (y.toUInt64 + height.toUInt64).toNat = y.toNat + height.toNat := by
    rw [UInt64.toNat_add, UInt32.toNat_toUInt64, UInt32.toNat_toUInt64]
    omega
  rw [UInt64.toNat_sub_of_le, hsum]
  · rfl
  · rw [UInt64.le_iff_toNat_le, hsum]
    change 1 ≤ _
    omega

/-- The test of a sum without the sum. -/
theorem exceeds_iff (a b rest : UInt64) :
    a > rest ∨ b > rest - a ↔ rest.toNat < a.toNat + b.toNat := by
  by_cases h : a > rest
  · have hlt := UInt64.lt_iff_toNat_lt.mp h
    exact ⟨fun _ => by omega, fun _ => .inl h⟩
  · have hle := UInt64.not_lt.mp h
    have hsub := UInt64.toNat_sub_of_le _ _ hle
    rw [UInt64.le_iff_toNat_le] at hle
    rw [or_iff_right h, gt_iff_lt, UInt64.lt_iff_toNat_lt, hsub]
    omega

/-- Nothing overflows in `gpu_extent`. -/
theorem gpuExtent_eq (pitch x y width height : UInt32) (capacity : UInt64) :
    (∀ off, gpuExtent pitch x y width height capacity = some off →
      off.toNat = y.toNat * pitch.toNat + x.toNat * 4) ∧
    ((gpuExtent pitch x y width height capacity).isSome ↔
      Inside pitch.toNat x.toNat y.toNat width.toNat height.toNat capacity.toNat) := by
  rw [inside_iff]
  have hp := pitch.toNat_lt
  have hc := capacity.toNat_lt
  have hw := bytes_toNat width
  have hx := bytes_toNat x
  have hrows := exceeds_iff (x.toUInt64 * 4) (width.toUInt64 * 4) pitch.toUInt64
  rw [UInt32.toNat_toUInt64, hw, hx] at hrows
  unfold gpuExtent
  dsimp only
  by_cases hzero : pitch = 0 ∨ width = 0 ∨ height = 0
  · rw [if_pos (by tauto)]
    rw [eq_zero_iff, eq_zero_iff, eq_zero_iff] at hzero
    refine ⟨nofun, ?_⟩
    simp only [Option.isSome_none, Bool.false_eq_true, false_iff]
    omega
  · have hpos := hzero
    rw [eq_zero_iff, eq_zero_iff, eq_zero_iff] at hpos
    have hl := lastRow_toNat y height (by omega)
    have hdiv : capacity.toNat / pitch.toNat < y.toNat + height.toNat - 1 ↔
        capacity.toNat < (y.toNat + height.toNat - 1) * pitch.toNat :=
      Nat.div_lt_iff_lt_mul (by omega)
    have hlast : y.toUInt64 + height.toUInt64 - 1 > capacity / pitch.toUInt64 ↔
        capacity.toNat < (y.toNat + height.toNat - 1) * pitch.toNat := by
      rw [gt_iff_lt, UInt64.lt_iff_toNat_lt, UInt64.toNat_div, UInt32.toNat_toUInt64, hl, hdiv]
    by_cases hfit : pitch.toNat < x.toNat * 4 + width.toNat * 4 ∨
        capacity.toNat < (y.toNat + height.toNat - 1) * pitch.toNat
    · rw [if_pos (by rw [← hrows, ← hlast] at hfit; tauto)]
      refine ⟨nofun, ?_⟩
      simp only [Option.isSome_none, Bool.false_eq_true, false_iff]
      omega
    · rw [if_neg (by rw [← hrows, ← hlast] at hfit; tauto)]
      rw [not_or, Nat.not_lt, Nat.not_lt] at hfit
      have hrow : y.toNat * pitch.toNat ≤ (y.toNat + height.toNat - 1) * pitch.toNat :=
        Nat.mul_le_mul_right _ (by omega)
      have hend : ((y.toUInt64 + height.toUInt64 - 1) * pitch.toUInt64).toNat =
          (y.toNat + height.toNat - 1) * pitch.toNat := by
        rw [UInt64.toNat_mul, UInt32.toNat_toUInt64, hl, Nat.mod_eq_of_lt (by omega)]
      have hbegin : (y.toUInt64 * pitch.toUInt64).toNat = y.toNat * pitch.toNat := by
        rw [UInt64.toNat_mul, UInt32.toNat_toUInt64, UInt32.toNat_toUInt64,
          Nat.mod_eq_of_lt (by omega)]
      have hrest := UInt64.toNat_sub_of_le capacity
        ((y.toUInt64 + height.toUInt64 - 1) * pitch.toUInt64)
        (by rw [UInt64.le_iff_toNat_le, hend]; exact hfit.2)
      rw [hend] at hrest
      have hover := exceeds_iff (x.toUInt64 * 4) (width.toUInt64 * 4)
        (capacity - (y.toUInt64 + height.toUInt64 - 1) * pitch.toUInt64)
      rw [hrest, hx, hw] at hover
      by_cases hbig : capacity.toNat - (y.toNat + height.toNat - 1) * pitch.toNat <
          x.toNat * 4 + width.toNat * 4
      · rw [if_pos (hover.mpr hbig)]
        refine ⟨nofun, ?_⟩
        simp only [Option.isSome_none, Bool.false_eq_true, false_iff]
        omega
      · rw [if_neg (mt hover.mp hbig)]
        constructor
        · intro off hoff
          rw [← Option.some.inj hoff, UInt64.toNat_add, hbegin, hx, Nat.mod_eq_of_lt (by omega)]
        · simp only [Option.isSome_some, true_iff]
          omega

/-! ## The pieces -/

def extentOf (b : GpuSrvBacking) : Extent := ⟨b.phys, b.length⟩

/-- The memory of the pieces as one buffer. -/
def buffer (mem : Memory) (bs : List GpuSrvBacking) : List UInt8 := image mem (bs.map extentOf)

/-- The byte is in none of the pieces. -/
def Outside (bs : List GpuSrvBacking) (a : ℕ) : Prop := ∀ b ∈ bs, a ∉ (extentOf b).set

/-- The size is that of the pieces, which do not overlap. -/
structure Backed (bs : List GpuSrvBacking) (bytes : ℕ) : Prop where
  bytes : capacity (bs.map extentOf) = bytes
  apart : (bs.map extentOf).Pairwise Extent.Apart

variable {bytes cursor offset : ℕ} {input : List UInt8} {mem : Memory} {b : GpuSrvBacking}
  {bs : List GpuSrvBacking}

theorem buffer_length (mem : Memory) (h : Backed bs bytes) : (buffer mem bs).length = bytes :=
  (image_length mem _).trans h.bytes

theorem buffer_cons (mem : Memory) (b : GpuSrvBacking) (bs : List GpuSrvBacking) :
    buffer mem (b :: bs) = memread mem b.phys b.length ++ buffer mem bs := image_cons ..

theorem outside_of_apart (hap : ((b :: bs).map extentOf).Pairwise Extent.Apart) {a : ℕ}
    (ha : a ∈ (extentOf b).set) : Outside bs a := by
  intro b' hb'
  rw [List.map_cons, List.pairwise_cons] at hap
  exact (hap.1 _ (List.mem_map_of_mem hb')).not_mem ha

theorem not_mem_of_apart (hap : ((b :: bs).map extentOf).Pairwise Extent.Apart) {a : ℕ}
    {b' : GpuSrvBacking} (hb' : b' ∈ bs) (ha : a ∈ (extentOf b').set) : a ∉ (extentOf b).set := by
  rw [List.map_cons, List.pairwise_cons] at hap
  exact (hap.1 _ (List.mem_map_of_mem hb')).symm.not_mem ha

theorem backingLoop_nil (bytes : ℕ) (bs : List GpuSrvBacking) (cursor offset : ℕ)
    (mem : Memory) : backingLoop bytes bs cursor offset [] mem = (mem, true) := by
  cases bs with
  | nil => rfl
  | cons b bs =>
    unfold backingLoop
    rw [if_pos rfl]

/-- The loop writes the text into the pieces as into one buffer. -/
theorem backingLoop_spec (bs : List GpuSrvBacking) (cursor offset : ℕ) (input : List UInt8)
    (mem : Memory) (hbytes : cursor + capacity (bs.map extentOf) ≤ bytes)
    (hle : cursor ≤ offset) (hfit : offset + input.length ≤ cursor + capacity (bs.map extentOf))
    (hap : (bs.map extentOf).Pairwise Extent.Apart) :
    (backingLoop bytes bs cursor offset input mem).2 = true ∧
      buffer (backingLoop bytes bs cursor offset input mem).1 bs =
        blit (buffer mem bs) (offset - cursor) input ∧
      ∀ a, Outside bs a → (backingLoop bytes bs cursor offset input mem).1 a = mem a := by
  by_cases hnil : input = []
  · rw [hnil, backingLoop_nil, blit_nil]
    exact ⟨rfl, rfl, fun _ _ => rfl⟩
  induction bs generalizing cursor offset input mem with
  | nil =>
    have hzero : capacity (([] : List GpuSrvBacking).map extentOf) = 0 := rfl
    exact absurd (List.eq_nil_of_length_eq_zero (by omega)) hnil
  | cons b bs ih =>
    have hap' := (List.pairwise_cons.mp (List.map_cons ▸ hap)).2
    have hcap : capacity ((b :: bs).map extentOf) = b.length + capacity (bs.map extentOf) :=
      capacity_cons _ _
    have hlen : (memread mem b.phys b.length).length = b.length := memread_length ..
    have hpos : 0 < input.length := List.length_pos_of_ne_nil hnil
    unfold backingLoop
    rw [if_neg hnil, if_neg (by omega)]
    dsimp only
    by_cases hskip : offset ≥ cursor + b.length
    · -- the text begins behind this piece, which no later piece touches
      rw [if_pos hskip]
      obtain ⟨hok, hbuf, hout⟩ := ih (cursor + b.length) offset input mem (by omega) hskip
        (by omega) hap' hnil
      refine ⟨hok, ?_, fun a ha => ?_⟩
      · rw [buffer_cons, buffer_cons, hbuf, blit_behind (by omega), hlen, Nat.sub_sub]
        congr 1
        apply memread_congr (e := extentOf b)
        exact fun a ha => hout a (outside_of_apart hap ha)
      · exact hout a fun b' hb' => ha b' (List.mem_cons_of_mem b hb')
    · rw [if_neg hskip]
      have hwithin : (if offset > cursor then offset - cursor else 0) = offset - cursor := by
        split_ifs <;> omega
      have htake : (if b.length - (offset - cursor) < input.length then
          b.length - (offset - cursor) else input.length) =
            min (b.length - (offset - cursor)) input.length := by
        split_ifs <;> omega
      rw [hwithin, htake]
      generalize hm : memcpy mem (b.phys + (offset - cursor))
        (input.take (min (b.length - (offset - cursor)) input.length)) = mem'
      have hpart : (input.take (min (b.length - (offset - cursor)) input.length)).length =
          min (b.length - (offset - cursor)) input.length := by
        rw [List.length_take]
        omega
      have houtside : ∀ a ∉ (extentOf b).set, mem' a = mem a := by
        intro a ha
        rw [← hm]
        exact memcpy_outside (e := extentOf b) (by rw [hpart]; change _ ≤ b.length; omega) ha
      have hrest : buffer mem' bs = buffer mem bs := by
        apply image_congr
        intro e he a ha
        obtain ⟨b', hb', rfl⟩ := List.mem_map.mp he
        exact houtside a (not_mem_of_apart hap hb' ha)
      have hread : memread mem' b.phys b.length = blit (memread mem b.phys b.length)
          (offset - cursor) (input.take (min (b.length - (offset - cursor)) input.length)) := by
        rw [← hm, memread_memcpy (by omega)]
      have hgone : ∀ a, Outside (b :: bs) a → mem' a = mem a :=
        fun a ha => houtside a (ha b List.mem_cons_self)
      by_cases hin : input.length ≤ b.length - (offset - cursor)
      · -- the text ends in this piece
        rw [Nat.min_eq_right hin, List.drop_length, backingLoop_nil]
        rw [Nat.min_eq_right hin, List.take_length] at hread
        refine ⟨rfl, ?_, hgone⟩
        rw [buffer_cons, buffer_cons, hread, hrest, blit_before (by omega)]
      · have hmin : min (b.length - (offset - cursor)) input.length =
            b.length - (offset - cursor) := Nat.min_eq_left (by omega)
        rw [hmin] at hread ⊢
        have hdrop : (input.drop (b.length - (offset - cursor))).length =
            input.length - (b.length - (offset - cursor)) := List.length_drop
        obtain ⟨hok, hbuf, hout⟩ := ih (cursor + b.length)
          (offset + (b.length - (offset - cursor)))
          (input.drop (b.length - (offset - cursor))) mem' (by omega) (by omega)
          (by omega) hap' (List.ne_nil_of_length_pos (by omega))
        have hzero : offset + (b.length - (offset - cursor)) - (cursor + b.length) = 0 := by omega
        rw [hzero, hrest] at hbuf
        refine ⟨hok, ?_, fun a ha => ?_⟩
        · rw [buffer_cons, buffer_cons, hbuf, blit_split (by omega) (by omega), hlen, ← hread]
          congr 1
          apply memread_congr (e := extentOf b)
          exact fun a ha => hout a (outside_of_apart hap ha)
        · rw [hout a fun b' hb' => ha b' (List.mem_cons_of_mem b hb')]
          exact hgone a ha

/-- The memory `mem'` is `mem` with the text at place `offset` of the buffer. -/
structure Written (bs : List GpuSrvBacking) (offset : ℕ) (src : List UInt8)
    (mem mem' : Memory) : Prop where
  buffer : buffer mem' bs = blit (buffer mem bs) offset src
  outside : ∀ a, Outside bs a → mem' a = mem a

variable {d : Display} {src : List UInt8} {source : AuConsole} {frame : GpuSrvFrame}

theorem gpuCopyIntoBacking_spec (mem : Memory) (offset : ℕ) (src : List UInt8)
    (hb : Backed d.gpu_backing d.gpu_backing_bytes.toNat)
    (hsrc : 0 < src.length) (hfit : offset + src.length ≤ d.gpu_backing_bytes.toNat) :
    (gpuCopyIntoBacking d mem offset src).2 = true ∧
      Written d.gpu_backing offset src mem (gpuCopyIntoBacking d mem offset src).1 := by
  have hnil : src ≠ [] := List.ne_nil_of_length_pos hsrc
  have hcap := hb.bytes
  obtain ⟨hok, hbuf, hout⟩ := backingLoop_spec d.gpu_backing 0 offset src mem
    (show 0 + _ ≤ d.gpu_backing_bytes.toNat by omega) (by omega) (by omega) hb.apart
  unfold gpuCopyIntoBacking
  dsimp only
  rw [if_neg (by
    rw [not_or, not_or]
    exact ⟨hnil, by omega, by omega⟩)]
  exact ⟨hok, hbuf, hout⟩

/-- What `n` rows from `row` on leave. -/
structure Rows (d : Display) (source : AuConsole) (src_offset dst_offset row_bytes row n : ℕ)
    (mem mem' : Memory) : Prop where
  copied : ∀ r, row ≤ r → r < row + n → ∀ col < row_bytes,
    (buffer mem' d.gpu_backing)[dst_offset + r * d.gpu_pitch.toNat + col]? =
      some (source.pixels (src_offset + r * source.pitch.toNat + col))
  rest : ∀ a, (∀ r, row ≤ r → r < row + n → ∀ col < row_bytes,
      a ≠ dst_offset + r * d.gpu_pitch.toNat + col) →
    (buffer mem' d.gpu_backing)[a]? = (buffer mem d.gpu_backing)[a]?
  outside : ∀ a, Outside d.gpu_backing a → mem' a = mem a

theorem copyRows_spec (source : AuConsole) (src_offset dst_offset row_bytes n row : ℕ)
    (mem : Memory) (hb : Backed d.gpu_backing d.gpu_backing_bytes.toNat) (hpos : 0 < row_bytes)
    (hpitch : row_bytes ≤ d.gpu_pitch.toNat)
    (hsrc : ∀ r < row + n, src_offset + r * source.pitch.toNat < 2 ^ 64)
    (hdst : ∀ r < row + n,
      dst_offset + r * d.gpu_pitch.toNat + row_bytes ≤ d.gpu_backing_bytes.toNat) :
    (copyRows d source src_offset dst_offset row_bytes n row mem).2 = true ∧
      Rows d source src_offset dst_offset row_bytes row n mem
        (copyRows d source src_offset dst_offset row_bytes n row mem).1 := by
  induction n generalizing row mem with
  | zero =>
    refine ⟨rfl, ?_, fun _ _ => rfl, fun _ _ => rfl⟩
    intro r h h'
    omega
  | succ n ih =>
    have hcap := d.gpu_backing_bytes.toNat_lt
    have hend := hdst row (by omega)
    unfold copyRows
    dsimp only
    rw [Nat.mod_eq_of_lt (hsrc row (by omega)), Nat.mod_eq_of_lt (by omega)]
    obtain ⟨hok, hw⟩ := gpuCopyIntoBacking_spec mem (dst_offset + row * d.gpu_pitch.toNat)
      (memread source.pixels (src_offset + row * source.pitch.toNat) row_bytes) hb
      (by rw [memread_length]; exact hpos) (by rw [memread_length]; exact hend)
    rw [hok]
    rw [show (!true) = false from rfl, if_neg Bool.false_ne_true]
    generalize (gpuCopyIntoBacking d mem (dst_offset + row * d.gpu_pitch.toNat)
      (memread source.pixels (src_offset + row * source.pitch.toNat) row_bytes)).1 = mem' at hw
    have hplace (a : ℕ) : (buffer mem' d.gpu_backing)[a]? =
        if dst_offset + row * d.gpu_pitch.toNat ≤ a ∧
          a < dst_offset + row * d.gpu_pitch.toNat + row_bytes then
            (memread source.pixels (src_offset + row * source.pitch.toNat) row_bytes)[
              a - (dst_offset + row * d.gpu_pitch.toNat)]?
        else (buffer mem d.gpu_backing)[a]? := by
      rw [hw.buffer, blit_getElem? (by rw [memread_length, buffer_length mem hb]; exact hend),
        memread_length]
    obtain ⟨hok', hrows⟩ := ih (row + 1) mem' (fun r hr => hsrc r (by omega))
      (fun r hr => hdst r (by omega))
    refine ⟨hok', ?_, ?_, fun a ha => (hrows.outside a ha).trans (hw.outside a ha)⟩
    · intro r hr hr' col hcol
      by_cases hfirst : r = row
      · -- no later row begins before the end of this one
        rw [hfirst, hrows.rest, hplace, if_pos ⟨by omega, by omega⟩, Nat.add_sub_cancel_left,
          memread_getElem?, if_pos hcol]
        intro r' h _ col' _
        have hlater : (row + 1) * d.gpu_pitch.toNat ≤ r' * d.gpu_pitch.toNat :=
          Nat.mul_le_mul_right _ h
        rw [Nat.add_one_mul] at hlater
        omega
      · exact hrows.copied r (by omega) (by omega) col hcol
    · intro a ha
      rw [hrows.rest a fun r h h' => ha r (by omega) (by omega), hplace, if_neg]
      rintro ⟨hge, hlt⟩
      exact ha row (le_refl _) (by omega) (a - (dst_offset + row * d.gpu_pitch.toNat)) (by omega)
        (by omega)

/-! ## A request -/

/-- The request passes the checks. -/
structure Accepted (d : Display) (aucon : Option AuConsole) (frame : GpuSrvFrame)
    (source : AuConsole) : Prop where
  console : gpuSource aucon = some source
  width : source.width = d.gpu_width
  height : source.height = d.gpu_height
  columns : frame.x.toNat + frame.width.toNat ≤ d.gpu_width.toNat
  lines : frame.y.toNat + frame.height.toNat ≤ d.gpu_height.toNat
  read : (gpuExtent source.pitch frame.x frame.y frame.width frame.height
    source.size.toUInt64).isSome
  write : (gpuExtent d.gpu_pitch frame.x frame.y frame.width frame.height
    d.gpu_backing_bytes).isSome

/-- The rectangle and nothing else is copied into the buffer of the pieces. -/
structure Copied (d : Display) (source : AuConsole) (frame : GpuSrvFrame)
    (mem mem' : Memory) : Prop where
  rectangle : ∀ row < frame.height.toNat, ∀ col < frame.width.toNat * 4,
    (buffer mem' d.gpu_backing)[
        (frame.y.toNat + row) * d.gpu_pitch.toNat + frame.x.toNat * 4 + col]? =
      some (source.pixels
        ((frame.y.toNat + row) * source.pitch.toNat + frame.x.toNat * 4 + col))
  rest : ∀ a, ¬ Touches d.gpu_pitch.toNat frame.x.toNat frame.y.toNat frame.width.toNat
      frame.height.toNat a →
    (buffer mem' d.gpu_backing)[a]? = (buffer mem d.gpu_backing)[a]?
  outside : ∀ a, Outside d.gpu_backing a → mem' a = mem a

theorem Accepted.inside {aucon : Option AuConsole} (h : Accepted d aucon frame source) :
    Inside source.pitch.toNat frame.x.toNat frame.y.toNat frame.width.toNat frame.height.toNat
      source.size.toNat ∧
    Inside d.gpu_pitch.toNat frame.x.toNat frame.y.toNat frame.width.toNat frame.height.toNat
      d.gpu_backing_bytes.toNat := by
  have hread := (gpuExtent_eq _ _ _ _ _ _).2.mp h.read
  rw [UInt32.toNat_toUInt64] at hread
  exact ⟨hread, (gpuExtent_eq _ _ _ _ _ _).2.mp h.write⟩

theorem span_iff (x total : UInt32) {size : UInt32} (h : 0 < size.toNat) :
    x ≥ total ∨ size > total - x ↔ total.toNat < x.toNat + size.toNat := by
  by_cases hx : x ≥ total
  · have hle := UInt32.le_iff_toNat_le.mp hx
    exact ⟨fun _ => by omega, fun _ => .inl hx⟩
  · have hsub := UInt32.toNat_sub_of_le _ _ (UInt32.le_of_lt (UInt32.not_le.mp hx))
    have hlt := UInt32.lt_iff_toNat_lt.mp (UInt32.not_le.mp hx)
    rw [or_iff_right hx, gt_iff_lt, UInt32.lt_iff_toNat_lt, hsub]
    omega

/-- The checks of the rectangle against the display. -/
theorem frame_iff (frame : GpuSrvFrame) (width height : UInt32) :
    (frame.width = 0 ∨ frame.height = 0 ∨ frame.x ≥ width ∨ frame.y ≥ height ∨
      frame.width > width - frame.x ∨ frame.height > height - frame.y) ↔
    ¬(0 < frame.width.toNat ∧ 0 < frame.height.toNat ∧
      frame.x.toNat + frame.width.toNat ≤ width.toNat ∧
      frame.y.toNat + frame.height.toNat ≤ height.toNat) := by
  rw [eq_zero_iff, eq_zero_iff]
  by_cases hw : frame.width.toNat = 0
  · exact ⟨fun _ => by omega, fun _ => .inl hw⟩
  by_cases hh : frame.height.toNat = 0
  · exact ⟨fun _ => by omega, fun _ => .inr (.inl hh)⟩
  have hx := span_iff frame.x width (Nat.pos_of_ne_zero hw)
  have hy := span_iff frame.y height (Nat.pos_of_ne_zero hh)
  rw [← Nat.not_lt (b := _ + frame.width.toNat), ← hx, ← Nat.not_lt (b := _ + frame.height.toNat),
    ← hy]
  have hw' := Nat.pos_of_ne_zero hw
  have hh' := Nat.pos_of_ne_zero hh
  tauto

/-- With the checks passed, the request is the loop over its rows. -/
theorem Accepted.eq {aucon : Option AuConsole} (h : Accepted d aucon frame source) :
    gpuCopyRect d aucon frame mem = copyRows d source
      (frame.y.toNat * source.pitch.toNat + frame.x.toNat * 4)
      (frame.y.toNat * d.gpu_pitch.toNat + frame.x.toNat * 4) (frame.width.toNat * 4)
      frame.height.toNat 0 mem := by
  obtain ⟨src_offset, hs⟩ := Option.isSome_iff_exists.mp h.read
  obtain ⟨dst_offset, hd⟩ := Option.isSome_iff_exists.mp h.write
  have hsrc := (gpuExtent_eq _ _ _ _ _ _).1 _ hs
  have hdst := (gpuExtent_eq _ _ _ _ _ _).1 _ hd
  obtain ⟨hpitch, hw, hh, -⟩ := h.inside.2
  have hpitch : ¬d.gpu_pitch = 0 := by
    rw [eq_zero_iff]
    omega
  unfold gpuCopyRect
  rw [h.console]
  dsimp only
  rw [if_neg (by
      rw [h.width, h.height]
      tauto),
    if_neg (by
      rw [frame_iff, not_not]
      exact ⟨hw, hh, h.columns, h.lines⟩), hs, hd]
  dsimp only
  rw [hsrc, hdst]

/-- Only an accepted request writes. -/
theorem gpuCopyRect_cases (d : Display) (aucon : Option AuConsole) (frame : GpuSrvFrame)
    (mem : Memory) :
    gpuCopyRect d aucon frame mem = (mem, false) ∨ ∃ source, Accepted d aucon frame source := by
  by_cases hsome : ∃ source, Accepted d aucon frame source
  · exact .inr hsome
  left
  unfold gpuCopyRect
  cases hc : gpuSource aucon with
  | none => rfl
  | some source =>
    dsimp only
    by_cases hdims : source.width ≠ d.gpu_width ∨ source.height ≠ d.gpu_height ∨ d.gpu_pitch = 0
    · rw [if_pos hdims]
    rw [if_neg hdims]
    by_cases hframe : frame.width = 0 ∨ frame.height = 0 ∨ frame.x ≥ d.gpu_width ∨
        frame.y ≥ d.gpu_height ∨ frame.width > d.gpu_width - frame.x ∨
          frame.height > d.gpu_height - frame.y
    · rw [if_pos hframe]
    rw [if_neg hframe]
    rw [frame_iff, not_not] at hframe
    cases hs : gpuExtent source.pitch frame.x frame.y frame.width frame.height
      source.size.toUInt64 with
    | none => rfl
    | some src_offset =>
      cases hd : gpuExtent d.gpu_pitch frame.x frame.y frame.width frame.height
        d.gpu_backing_bytes with
      | none => rfl
      | some dst_offset =>
        refine absurd ⟨source, hc, ?_, ?_, hframe.2.2.1, hframe.2.2.2, ?_, ?_⟩ hsome
        · tauto
        · tauto
        · rw [hs]
          rfl
        · rw [hd]
          rfl

theorem Accepted.copied {aucon : Option AuConsole} (h : Accepted d aucon frame source)
    (mem : Memory) (hb : Backed d.gpu_backing d.gpu_backing_bytes.toNat) :
    (gpuCopyRect d aucon frame mem).2 = true ∧
      Copied d source frame mem (gpuCopyRect d aucon frame mem).1 := by
  obtain ⟨hread, hwrite⟩ := h.inside
  rw [inside_iff] at hread hwrite
  obtain ⟨-, hw, hh, -, hsend⟩ := hread
  obtain ⟨-, -, -, hline, hdend⟩ := hwrite
  have hsize := source.size.toNat_lt
  have hplace (p r : ℕ) :
      frame.y.toNat * p + frame.x.toNat * 4 + r * p =
        (frame.y.toNat + r) * p + frame.x.toNat * 4 := by
    rw [Nat.add_mul]
    omega
  have hrow (p r : ℕ) (hr : r < frame.height.toNat) :
      (frame.y.toNat + r) * p ≤ (frame.y.toNat + frame.height.toNat - 1) * p :=
    Nat.mul_le_mul_right p (by omega)
  rw [h.eq]
  obtain ⟨hok, hrows⟩ := copyRows_spec source
    (frame.y.toNat * source.pitch.toNat + frame.x.toNat * 4)
    (frame.y.toNat * d.gpu_pitch.toNat + frame.x.toNat * 4) (frame.width.toNat * 4)
    frame.height.toNat 0 mem hb (by omega) (by omega)
    (fun r hr => by
      have := hrow source.pitch.toNat r (by omega)
      rw [hplace]
      omega)
    (fun r hr => by
      have := hrow d.gpu_pitch.toNat r (by omega)
      rw [hplace]
      omega)
  refine ⟨hok, ?_, ?_, hrows.outside⟩
  · intro row hr col hcol
    have := hrows.copied row (Nat.zero_le _) (by omega) col hcol
    rwa [hplace, hplace] at this
  · intro a ha
    apply hrows.rest
    intro r _ hr col hcol heq
    rw [hplace] at heq
    exact ha ⟨r, by omega, col, hcol, heq⟩

/-- The check of an extent is exact, and an accepted rectangle is copied as into one buffer. -/
theorem gpuCopyRect_scatter (d : Display) (aucon : Option AuConsole) (frame : GpuSrvFrame)
    (mem : Memory) (hb : Backed d.gpu_backing d.gpu_backing_bytes.toNat) :
    (∀ (pitch x y width height : UInt32) (capacity : UInt64),
      ((gpuExtent pitch x y width height capacity).isSome ↔
        Inside pitch.toNat x.toNat y.toNat width.toNat height.toNat capacity.toNat) ∧
      ∀ offset, gpuExtent pitch x y width height capacity = some offset →
        offset.toNat = y.toNat * pitch.toNat + x.toNat * 4) ∧
    ((gpuCopyRect d aucon frame mem).2 = true ↔ ∃ source, Accepted d aucon frame source) ∧
    ((gpuCopyRect d aucon frame mem).2 = false → (gpuCopyRect d aucon frame mem).1 = mem) ∧
    ∀ source, Accepted d aucon frame source →
      Copied d source frame mem (gpuCopyRect d aucon frame mem).1 := by
  have hcopied (source : AuConsole) (h : Accepted d aucon frame source) :=
    h.copied mem hb
  refine ⟨fun _ _ _ _ _ _ => ⟨(gpuExtent_eq ..).2, (gpuExtent_eq ..).1⟩, ?_, ?_,
    fun source h => (hcopied source h).2⟩
  · constructor
    · intro hok
      rcases gpuCopyRect_cases d aucon frame mem with hno | hyes
      · rw [hno] at hok
        exact absurd hok Bool.false_ne_true
      · exact hyes
    · rintro ⟨source, h⟩
      exact (hcopied source h).1
  · intro hno
    rcases gpuCopyRect_cases d aucon frame mem with h | ⟨source, h⟩
    · rw [h]
    · rw [(hcopied source h).1] at hno
      exact absurd hno.symm Bool.false_ne_true

/-- A console of two lines of two pixels, whose byte `a` is `a`. -/
def console : AuConsole := ⟨2, 2, 4096, fun a => UInt8.ofNat a, 32, 24, 12⟩

/-- Two pieces, the first of which ends within the second pixel. -/
def twoPieces : Display := ⟨[⟨4096, 6⟩, ⟨8192, 10⟩], 16, 2, 2, 8⟩

theorem gpuCopyRect_scatter_straddle :
    (∃ source, Accepted twoPieces (some console) ⟨1, 0, 1, 2⟩ source) ∧
    ((gpuExtent 8 1 0 1 2 16).isSome ↔ Inside 8 1 0 1 2 16) ∧
    buffer (gpuCopyRect twoPieces (some console) ⟨1, 0, 1, 2⟩ fun _ => 0).1
      twoPieces.gpu_backing = [0, 0, 0, 0, 4, 5, 6, 7, 0, 0, 0, 0, 16, 17, 18, 19] := by
  have hb : Backed twoPieces.gpu_backing twoPieces.gpu_backing_bytes.toNat := by
    refine ⟨rfl, List.pairwise_pair.mpr (Extent.apart_iff.mpr ?_)⟩
    decide
  have h := gpuCopyRect_scatter twoPieces (some console) ⟨1, 0, 1, 2⟩ (fun _ => 0) hb
  exact ⟨h.2.1.mp (by decide), (h.1 8 1 0 1 2 16).1, by decide⟩

/-- The same memory given twice. -/
def onePieceTwice : Display := ⟨[⟨4096, 4⟩, ⟨4096, 4⟩], 8, 1, 2, 4⟩

/-- A console of two lines of one pixel. -/
def column : AuConsole := ⟨1, 2, 4096, fun a => UInt8.ofNat a, 32, 8, 4⟩

theorem not_gpuCopyRect_scatter :
    ¬ (∀ (pitch x y width height : UInt32) (capacity : UInt64),
      (gpuExtent pitch x y width height capacity).isSome ↔
        ∀ a, Touches pitch.toNat x.toNat y.toNat width.toNat height.toNat a →
          a < capacity.toNat) ∧
    ¬ (∀ (d : Display) (aucon : Option AuConsole) (frame : GpuSrvFrame) (source : AuConsole)
      (mem : Memory), capacity (d.gpu_backing.map extentOf) = d.gpu_backing_bytes.toNat →
        Accepted d aucon frame source →
          Copied d source frame mem (gpuCopyRect d aucon frame mem).1) := by
  constructor
  · intro h
    have hnone : ¬ (gpuExtent 4 1 0 1 1 100).isSome := by decide
    apply hnone
    apply (h 4 1 0 1 1 100).mpr
    rintro a ⟨row, hrow, col, hcol, rfl⟩
    change row < 1 at hrow
    change col < 1 * 4 at hcol
    change (0 + row) * 4 + 1 * 4 + col < 100
    omega
  · intro h
    have hsource : gpuSource (some column) = some column := by
      unfold gpuSource
      rw [Option.filter_some, if_pos (by decide)]
    have hc := h onePieceTwice (some column) ⟨0, 0, 1, 2⟩ column (fun _ => 0) rfl
      ⟨hsource, rfl, rfl, by decide, by decide, by decide, by decide⟩
    have hfirst := hc.rectangle 0 (by decide) 0 (by decide)
    revert hfirst
    decide

end Xeneva.Gpu.Scatter
