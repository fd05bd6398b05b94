import Xeneva.Base.Raster
import Xeneva.Deodhai.Dirty

/-!
# Composing a window

A window is drawn on the canvas as it is or scaled, whole or as far as a clip rectangle reaches. The
edges of all rectangles and the sizes of all buffers fit in an `int`, so no sum of theirs wraps.
-/

namespace Xeneva.Deodhai.Compose

open Base Dirty

/-! ## Pixels -/

def alpha (c : UInt32) : UInt32 := c >>> 24

/-- One channel of a blend, as a `uint8_t`. -/
def mix (sp dp sa shift : UInt32) : UInt32 :=
  ((((sp >>> shift) &&& 0xFF) * sa + ((dp >>> shift) &&& 0xFF) * (255 - sa)) >>> 8) &&& 0xFF

def AMASK : UInt32 := 0xFF000000

/-- A pixel of `__pixel_blend_neon`. -/
def pixelBlend (dp sp : UInt32) : UInt32 :=
  let sa := alpha sp
  if sa = 255 then sp
  else if sa = 0 then dp
  else AMASK ||| (mix sp dp sa 16 <<< 16) ||| (mix sp dp sa 8 <<< 8) ||| mix sp dp sa 0

def RBMASK : UInt32 := 0x00FF00FF
def GMASK : UInt32 := 0x0000FF00
def AGMASK : UInt32 := AMASK ||| GMASK
def ONEALPHA : UInt32 := 0x01000000

def chColorAlphaBlend2 (color1 color2 : UInt32) : UInt32 :=
  let a := (color2 &&& AMASK) >>> 24
  if a = 0 then color1
  else if a = 255 then color2
  else
    let na := 255 - a
    let rb := ((na * (color1 &&& RBMASK)) + (a * (color2 &&& RBMASK))) >>> 8
    let ag := (na * ((color1 &&& AGMASK) >>> 8)) + (a * (ONEALPHA ||| ((color2 &&& GMASK) >>> 8)))
    (rb &&& RBMASK) ||| (ag &&& AGMASK)

/-- A pixel of the scaled loops that is not drawn in a group. -/
def scaledPixel (dp f : UInt32) : UInt32 :=
  if f &&& 0xFF000000 = 0xFF000000 then f else chColorAlphaBlend2 dp f

theorem mask_shiftRight (c : UInt32) : (c &&& AMASK) >>> 24 = alpha c := by
  apply UInt32.toBitVec_inj.mp
  ext i hi
  simp only [AMASK, alpha, UInt32.toBitVec_shiftRight, UInt32.toBitVec_and, UInt32.toBitVec_ofNat]
  interval_cases i <;> simp

theorem or_and_self_left (a b : ℕ) : (a ||| b) &&& a = a := by
  apply Nat.eq_of_testBit_eq
  intro i
  rw [Nat.testBit_and, Nat.testBit_or]
  cases a.testBit i
  · exact Bool.and_false _
  · rfl

/-- The two tests for a solid pixel. -/
theorem mask_eq_iff (c : UInt32) : c &&& (0xFF000000 : UInt32) = 0xFF000000 ↔ alpha c = 255 := by
  constructor
  · intro h
    have hs := mask_shiftRight c
    rw [AMASK, h] at hs
    exact hs.symm
  · intro h
    have hdiv : c.toNat / 2 ^ 24 = 255 := by
      have hn := congrArg UInt32.toNat h
      rw [alpha, UInt32.toNat_shiftRight] at hn
      rwa [← Nat.shiftRight_eq_div_pow]
    have hor : c.toNat = 2 ^ 24 * 255 ||| c.toNat % 2 ^ 24 := by
      rw [← Nat.two_pow_add_eq_or_of_lt (Nat.mod_lt _ (by decide))]
      omega
    apply UInt32.toNat_inj.mp
    rw [UInt32.toNat_and, hor]
    exact or_and_self_left (2 ^ 24 * 255) _

theorem pixelBlend_solid {c : UInt32} (dp : UInt32) (h : alpha c = 255) : pixelBlend dp c = c := by
  rw [pixelBlend, if_pos h]

theorem pixelBlend_clear {c : UInt32} (dp : UInt32) (h : alpha c = 0) : pixelBlend dp c = dp := by
  rw [pixelBlend, if_neg (by rw [h]; decide), if_pos h]

theorem chColorAlphaBlend2_solid {c : UInt32} (dp : UInt32) (h : alpha c = 255) :
    chColorAlphaBlend2 dp c = c := by
  simp only [chColorAlphaBlend2, mask_shiftRight, h]
  rfl

theorem chColorAlphaBlend2_clear {c : UInt32} (dp : UInt32) (h : alpha c = 0) :
    chColorAlphaBlend2 dp c = dp := by
  simp only [chColorAlphaBlend2, mask_shiftRight, h, if_true]

/-- Single pixels and those of a group are blended alike. -/
theorem scaledPixel_eq (dp f : UInt32) : scaledPixel dp f = chColorAlphaBlend2 dp f := by
  rw [scaledPixel]
  split_ifs with h
  · exact (chColorAlphaBlend2_solid dp ((mask_eq_iff f).mp h)).symm
  · rfl

def plain : Blend UInt32 where
  one _ _ := pixelBlend
  group _ _ := pixelBlend
  solid c := alpha c = 255
  clear c := alpha c = 0
  group_eq _ _ _ _ := rfl
  solid_eq _ _ old _ h := pixelBlend_solid old (of_decide_eq_true h)
  clear_eq _ _ old _ h := pixelBlend_clear old (of_decide_eq_true h)

def scaled : Blend UInt32 where
  one _ _ := scaledPixel
  group _ _ := chColorAlphaBlend2
  solid c := alpha c = 255
  clear c := alpha c = 0
  group_eq _ _ old c := (scaledPixel_eq old c).symm
  solid_eq _ _ old c h := by
    rw [scaledPixel_eq]
    exact chColorAlphaBlend2_solid old (of_decide_eq_true h)
  clear_eq _ _ old c h := by
    rw [scaledPixel_eq]
    exact chColorAlphaBlend2_clear old (of_decide_eq_true h)

structure Canvas where
  canvasWidth : ℤ
  canvasHeight : ℤ
  screenHeight : ℤ
  /-- The compositor makes the canvas as high as the screen. -/
  screen_le : screenHeight ≤ canvasHeight

/-- A place on the canvas, a length and a place in the window, along one of the two axes. -/
structure Span where
  dst : ℤ
  len : ℤ
  src : ℤ

structure Scaled where
  src_w : ℤ
  src_h : ℤ
  dst_x : ℤ
  dst_y : ℤ
  dw : ℤ
  dh : ℤ
  backBuffer : ℤ → UInt32

/-- A conversion to `uint32_t`. -/
def toU32 (z : ℤ) : ℤ := z % 2 ^ 32

def InClip (canvas : Canvas) (clip : Rect) (k : ℤ) : Prop :=
  (clip.x ≤ k % canvas.canvasWidth ∧ k % canvas.canvasWidth < clip.x + clip.w) ∧
    clip.y ≤ k / canvas.canvasWidth ∧ k / canvas.canvasWidth < clip.y + clip.h

/-- The canvas before. -/
def untouched (px : ℤ → UInt32) : Raster UInt32 := ⟨px, [], []⟩

/-- Inside the clip rectangle the canvas is what the whole window makes of it, outside it is as
before; and all reads are in the window's buffer of `size` pixels, all accesses in the canvas. -/
structure Clipped (canvas : Canvas) (size : ℤ) (clip : Rect) (px : ℤ → UInt32)
    (whole clipped : Raster UInt32) : Prop where
  inside : ∀ k, InClip canvas clip k → clipped.px k = whole.px k
  outside : ∀ k, ¬ InClip canvas clip k → clipped.px k = px k
  reads : ∀ s, s ∈ whole.reads ∨ s ∈ clipped.reads → 0 ≤ s ∧ s < size
  touched : ∀ d, d ∈ whole.touched ∨ d ∈ clipped.touched →
    0 ≤ d ∧ d < canvas.canvasWidth * canvas.canvasHeight

variable {canvas : Canvas} {clip : Rect} {px : ℤ → UInt32} {m m' : Raster UInt32} {neon : Bool}
variable {A B : ℤ → Prop} {color : ℤ → UInt32 → UInt32} {size : ℤ}

/-- Two drawings in the same colours, one of the places of the other that are in the clip. -/
theorem Paints.clipped (hw : Paints (untouched px) m A color fun s => 0 ≤ s ∧ s < size)
    (hc : Paints (untouched px) m' B color fun s => 0 ≤ s ∧ s < size)
    (hB : ∀ k, B k ↔ A k ∧ InClip canvas clip k)
    (hA : ∀ k, A k → 0 ≤ k ∧ k < canvas.canvasWidth * canvas.canvasHeight) :
    Clipped canvas size clip px m m' where
  inside k hk := by
    by_cases ha : A k
    · rw [hc.inside k ((hB k).mpr ⟨ha, hk⟩), hw.inside k ha]
    · rw [hc.outside k fun hb => ha ((hB k).mp hb).1, hw.outside k ha]
  outside k hk := hc.outside k fun hb => hk ((hB k).mp hb).2
  reads s hs := by
    rcases hs with hs | hs
    · exact (hw.reads s hs).resolve_left List.not_mem_nil
    · exact (hc.reads s hs).resolve_left List.not_mem_nil
  touched d hd := by
    rcases hd with hd | hd
    · exact hA d ((hw.touched d hd).resolve_left List.not_mem_nil)
    · exact hA d ((hB d).mp ((hc.touched d hd).resolve_left List.not_mem_nil)).1

/-- The places of a span. -/
def Span.Covers (p : Span) (k : ℤ) : Prop := p.dst ≤ k ∧ k < p.dst + p.len

/-- The step from one source pixel to the next, for `n` pixels drawn on `d`. -/
def fixedStep (n d : ℤ) : ℤ := toU32 (n * 2 ^ 16 / d)

/-- The source pixel of the `i`-th of `d` pixels. -/
def fixedPlace (n d i : ℤ) : ℤ := i * fixedStep n d / 2 ^ 16

/-- The pixel of a scaled window that is shown at a place. -/
def Scaled.place (win : Scaled) (cw k : ℤ) : ℤ :=
  fixedPlace win.src_h win.dh (k / cw - win.dst_y) * win.src_w +
    fixedPlace win.src_w win.dw (k % cw - win.dst_x)

/-- A window that is not empty, of less than 65536 pixels each way. -/
structure Scaled.Fits (win : Scaled) : Prop where
  dw : 0 < win.dw
  dh : 0 < win.dh
  src_w : 0 < win.src_w ∧ win.src_w < 2 ^ 16
  src_h : 0 < win.src_h ∧ win.src_h < 2 ^ 16

/-- The places at which a scaled window is visible. -/
def Scaled.Shown (win : Scaled) (canvas : Canvas) (k : ℤ) : Prop :=
  ((win.dst_x ≤ k % canvas.canvasWidth ∧ 0 ≤ k % canvas.canvasWidth) ∧
    k % canvas.canvasWidth < win.dst_x + win.dw ∧ k % canvas.canvasWidth < canvas.canvasWidth) ∧
  (win.dst_y ≤ k / canvas.canvasWidth ∧ 0 ≤ k / canvas.canvasWidth) ∧
    k / canvas.canvasWidth < win.dst_y + win.dh ∧ k / canvas.canvasWidth < canvas.canvasHeight

end Xeneva.Deodhai.Compose
