import Xeneva.Base.Tiles
import Xeneva.Deodhai.DamageRun
import Xeneva.Deodhai.Dirty

/-!
# Visible parts of a window

The visible part of a window is a list of at most 100 rectangles, from which the windows in front
are cut one after another. A rectangle that is met is replaced by the up to four parts around the
cut; once more than 96 rectangles are in the new list the others are copied whole, and those that
do not fit are dropped.
-/

namespace Xeneva.Deodhai.Clip

open Base Dirty

def CLIP_MAX_RECTS : ℕ := 100

def clipEmit (list : List Rect) (cap : ℕ) (l t r b : ℤ) : List Rect :=
  if r ≤ l ∨ b ≤ t ∨ cap ≤ list.length then list
  else list ++ [⟨l, t, toInt (r - l), toInt (b - t)⟩]

def clipValueInRange (value min max : ℤ) : Bool := min ≤ value ∧ value ≤ max

def clipCheckIntersect (r1 r2 : Rect) : Bool :=
  let xOverlap := clipValueInRange r1.x r2.x (toInt (r2.x + r2.w)) ||
    clipValueInRange r2.x r1.x (toInt (r1.x + r1.w))
  let yOverlap := clipValueInRange r1.y r2.y (toInt (r2.y + r2.h)) ||
    clipValueInRange r2.y r1.y (toInt (r1.y + r1.h))
  xOverlap && yOverlap

def clipCalculateRect (sub_rect cut_rect : Rect) (list : List Rect) : List Rect :=
  let sl := sub_rect.x
  let st := sub_rect.y
  let sr := toInt (sl + sub_rect.w)
  let sb := toInt (st + sub_rect.h)
  let cl := if cut_rect.x > sl then cut_rect.x else sl
  let ct := if cut_rect.y > st then cut_rect.y else st
  let cr := if toInt (cut_rect.x + cut_rect.w) < sr then toInt (cut_rect.x + cut_rect.w) else sr
  let cb := if toInt (cut_rect.y + cut_rect.h) < sb then toInt (cut_rect.y + cut_rect.h) else sb
  if cl ≥ cr ∨ ct ≥ cb then clipEmit list CLIP_MAX_RECTS sl st sr sb
  else
    let list := clipEmit list CLIP_MAX_RECTS sl st cl sb
    let list := clipEmit list CLIP_MAX_RECTS cr st sr sb
    let list := clipEmit list CLIP_MAX_RECTS cl st cr ct
    clipEmit list CLIP_MAX_RECTS cl cb cr sb

/-- One round of the loop. -/
def clipRound (cut_rect : Rect) (outputList : List Rect) (r : Rect) : List Rect :=
  if clipCheckIntersect r cut_rect ∧ outputList.length + 4 ≤ CLIP_MAX_RECTS then
    clipCalculateRect r cut_rect outputList
  else if outputList.length < CLIP_MAX_RECTS then outputList ++ [r]
  else outputList

/-- The first `inputCount` rectangles of the array, before and after. -/
def clipSubtractRectList (inputList : List Rect) (cut_rect : Rect) : List Rect :=
  inputList.foldl (clipRound cut_rect) []

def tile (r : Rect) : Tile ℤ := ⟨r.x, r.y, r.x + r.w, r.y + r.h⟩

def ofTile (t : Tile ℤ) : Rect := ⟨t.left, t.top, t.right - t.left, t.bottom - t.top⟩

/-- The pixels of a list. -/
def region (l : List Rect) : Set (ℤ × ℤ) := { p | ∃ r ∈ l, p ∈ (tile r).cells }

/-- What is left of a rectangle when another one is cut out. -/
def pieces (cut r : Rect) : List Rect := ((tile r).without (tile cut)).map ofTile

/-- The sides and the edges fit in an `int`. -/
structure InInt (r : Rect) : Prop where
  left : -2 ^ 31 ≤ r.x
  top : -2 ^ 31 ≤ r.y
  width : r.w < 2 ^ 31
  height : r.h < 2 ^ 31
  right : -2 ^ 31 ≤ r.x + r.w ∧ r.x + r.w < 2 ^ 31
  bottom : -2 ^ 31 ≤ r.y + r.h ∧ r.y + r.h < 2 ^ 31

/-- Rectangles that are not empty and share no pixel. -/
structure Apart (l : List Rect) : Prop where
  area : ∀ r ∈ l, r.Area
  disjoint : l.Pairwise fun a b => Disjoint (tile a).cells (tile b).cells

/-- A cut is exact where its result fits, and takes away no pixel outside the cut rectangle. -/
structure Subtracted (l : List Rect) (cut : Rect) (l' : List Rect) : Prop where
  apart : Apart l'
  exact : (l.flatMap (pieces cut)).length ≤ CLIP_MAX_RECTS →
    region l' = region l \ (tile cut).cells
  covers : region l \ (tile cut).cells ⊆ region l'

/-- The rectangles with at most 96 pieces before them, and the others. -/
def split (cut : Rect) : ℕ → List Rect → List Rect × List Rect
  | _, [] => ([], [])
  | n, r :: rs =>
    if n + 4 ≤ CLIP_MAX_RECTS then
      let (front, back) := split cut (n + (pieces cut r).length) rs
      (r :: front, back)
    else ([], r :: rs)

def front (cut : Rect) (l : List Rect) : List Rect := (split cut 0 l).1
def back (cut : Rect) (l : List Rect) : List Rect := (split cut 0 l).2

/-- The number of pieces of the first rectangles. -/
def frontCount (cut : Rect) (l : List Rect) : ℕ := ((front cut l).flatMap (pieces cut)).length

/-- Of the rectangles behind 96 pieces, those that have room do not meet the cut where the result
fits, and those that have none are inside the cut. -/
structure NoLoss (l : List Rect) (cut : Rect) : Prop where
  whole : (l.flatMap (pieces cut)).length ≤ CLIP_MAX_RECTS →
    ∀ r ∈ (back cut l).take (CLIP_MAX_RECTS - frontCount cut l),
      Disjoint (tile r).cells (tile cut).cells
  room : ∀ r ∈ (back cut l).drop (CLIP_MAX_RECTS - frontCount cut l),
    (tile r).cells ⊆ (tile cut).cells

variable {cut r s : Rect} {l rs : List Rect} {n : ℕ} {p : ℤ × ℤ}

@[simp] theorem tile_ofTile (t : Tile ℤ) : tile (ofTile t) = t := by
  obtain ⟨left, top, right, bottom⟩ := t
  simp only [tile, ofTile, Tile.mk.injEq, true_and]
  omega

theorem ofTile_tile (r : Rect) : ofTile (tile r) = r := by
  obtain ⟨x, y, w, h⟩ := r
  simp only [tile, ofTile, Rect.mk.injEq, true_and]
  omega

theorem area_iff : r.Area ↔ (tile r).Proper := by
  simp only [Rect.Area, Tile.Proper, tile]
  omega

theorem mem_pieces : s ∈ pieces cut r ↔ tile s ∈ (tile r).without (tile cut) := by
  rw [pieces, List.mem_map]
  constructor
  · rintro ⟨t, ht, rfl⟩
    rwa [tile_ofTile]
  · intro h
    exact ⟨tile s, h, ofTile_tile s⟩

theorem mem_region_pieces : p ∈ region (pieces cut r) ↔
    p ∈ (tile r).cells ∧ p ∉ (tile cut).cells := by
  rw [← Tile.mem_without]
  constructor
  · rintro ⟨s, hs, hp⟩
    exact ⟨tile s, mem_pieces.mp hs, hp⟩
  · rintro ⟨t, ht, hp⟩
    exact ⟨ofTile t, mem_pieces.mpr (by rwa [tile_ofTile]), by rwa [tile_ofTile]⟩

theorem pieces_apart (h : r.Area) : Apart (pieces cut r) where
  area s hs := area_iff.mpr (Tile.proper_of_mem_without (area_iff.mp h) (mem_pieces.mp hs))
  disjoint := by
    rw [pieces, List.pairwise_map]
    simp only [tile_ofTile]
    exact Tile.without_apart

theorem length_pieces_le : (pieces cut r).length ≤ 4 := by
  rw [pieces, List.length_map]
  exact Tile.length_without_le

/-! ## One rectangle -/

/-- The tile as a rectangle, if there is anything in it. -/
def emitted (t : Tile ℤ) : List Rect := if t.Proper then [ofTile t] else []

theorem length_emitted_le (t : Tile ℤ) : (emitted t).length ≤ 1 := by
  rw [emitted]
  split_ifs
  · exact le_refl _
  · exact Nat.zero_le _

theorem clipEmit_eq {list : List Rect} {t : Tile ℤ} (hn : list.length < CLIP_MAX_RECTS)
    (hw : t.right - t.left < 2 ^ 31) (hh : t.bottom - t.top < 2 ^ 31) :
    clipEmit list CLIP_MAX_RECTS t.left t.top t.right t.bottom = list ++ emitted t := by
  rw [clipEmit, emitted]
  by_cases ht : t.Proper
  · obtain ⟨h1, h2⟩ := ht
    rw [if_neg (by omega), if_pos ⟨h1, h2⟩, toInt_eq (by omega) hw, toInt_eq (by omega) hh]
    rfl
  · rw [if_neg ht, List.append_nil]
    rw [Tile.Proper] at ht
    rw [if_pos (by omega)]

theorem pieces_eq : pieces cut r =
    if ((tile r).meet (tile cut)).Proper then
      ((tile r).around ((tile r).meet (tile cut))).flatMap emitted
    else [r] := by
  rw [pieces, Tile.without]
  split_ifs with h
  · generalize (tile r).around ((tile r).meet (tile cut)) = ts
    induction ts with
    | nil => rfl
    | cons t ts ih =>
      rw [List.filter_cons, List.flatMap_cons, ← ih, emitted]
      by_cases ht : t.Proper
      · rw [if_pos (decide_eq_true ht), if_pos ht]
        rfl
      · rw [if_neg (by simpa using ht), if_neg ht]
        rfl
  · rw [List.map_singleton, ofTile_tile]

/-- The code in terms of what the two rectangles have in common. -/
theorem clipCalculateRect_meet (hr : InInt r) (hc : InInt cut) (list : List Rect) :
    clipCalculateRect r cut list =
      let t := tile r
      let m := (tile r).meet (tile cut)
      if m.Proper then
        let list := clipEmit list CLIP_MAX_RECTS t.left t.top m.left t.bottom
        let list := clipEmit list CLIP_MAX_RECTS m.right t.top t.right t.bottom
        let list := clipEmit list CLIP_MAX_RECTS m.left t.top m.right m.top
        clipEmit list CLIP_MAX_RECTS m.left m.bottom m.right t.bottom
      else clipEmit list CLIP_MAX_RECTS t.left t.top t.right t.bottom := by
  have hmax (a b : ℤ) : (if a > b then a else b) = max a b := by split_ifs <;> omega
  have hmin (a b : ℤ) : (if a < b then a else b) = min a b := by split_ifs <;> omega
  have hm : ((tile r).meet (tile cut)).Proper ↔
      max cut.x r.x < min (cut.x + cut.w) (r.x + r.w) ∧
        max cut.y r.y < min (cut.y + cut.h) (r.y + r.h) := Iff.rfl
  simp only [clipCalculateRect, toInt_eq hc.right.1 hc.right.2, toInt_eq hr.right.1 hr.right.2,
    toInt_eq hc.bottom.1 hc.bottom.2, toInt_eq hr.bottom.1 hr.bottom.2, hmax, hmin]
  by_cases h : ((tile r).meet (tile cut)).Proper
  · have hlt := hm.mp h
    rw [if_pos h, if_neg (by omega)]
    rfl
  · have hge := mt hm.mpr h
    rw [if_neg h, if_pos (by omega)]
    rfl

/-- A rectangle is replaced by its pieces where four more have room. -/
theorem clipCalculateRect_eq {list : List Rect} (hr : InInt r) (ha : r.Area) (hc : InInt cut)
    (hn : list.length + 4 ≤ CLIP_MAX_RECTS) :
    clipCalculateRect r cut list = list ++ pieces cut r := by
  have hb := Tile.meet_bounds (t := tile r) (c := tile cut)
  have hw : (tile r).right - (tile r).left < 2 ^ 31 := by
    have := hr.width
    simp only [tile]
    omega
  have hh : (tile r).bottom - (tile r).top < 2 ^ 31 := by
    have := hr.height
    simp only [tile]
    omega
  rw [clipCalculateRect_meet hr hc, pieces_eq]
  generalize (tile r).meet (tile cut) = m at hb
  simp only
  split_ifs with hm
  · obtain ⟨h1, h2⟩ := hm
    have e1 := length_emitted_le ⟨(tile r).left, (tile r).top, m.left, (tile r).bottom⟩
    have e2 := length_emitted_le ⟨m.right, (tile r).top, (tile r).right, (tile r).bottom⟩
    have e3 := length_emitted_le ⟨m.left, (tile r).top, m.right, m.top⟩
    rw [clipEmit_eq (t := ⟨(tile r).left, (tile r).top, m.left, (tile r).bottom⟩) (by omega)
      (by simp only; omega) hh]
    rw [clipEmit_eq (t := ⟨m.right, (tile r).top, (tile r).right, (tile r).bottom⟩)
      (by rw [List.length_append]; omega) (by simp only; omega) hh]
    rw [clipEmit_eq (t := ⟨m.left, (tile r).top, m.right, m.top⟩)
      (by rw [List.length_append, List.length_append]; omega) (by simp only; omega)
      (by simp only; omega)]
    rw [clipEmit_eq (t := ⟨m.left, m.bottom, m.right, (tile r).bottom⟩)
      (by rw [List.length_append, List.length_append, List.length_append]; omega)
      (by simp only; omega) (by simp only; omega)]
    simp only [Tile.around, List.flatMap_cons, List.flatMap_nil, List.append_nil, List.append_assoc]
  · rw [clipEmit_eq (by omega) hw hh, emitted, if_pos (area_iff.mp ha), ofTile_tile]

/-- Rectangles that do not touch have nothing in common. -/
theorem pieces_of_not_intersect (hr : InInt r) (hc : InInt cut)
    (h : clipCheckIntersect r cut = false) : pieces cut r = [r] := by
  rw [pieces_eq, if_neg]
  rintro ⟨h1, h2⟩
  simp only [clipCheckIntersect, clipValueInRange, toInt_eq hc.right.1 hc.right.2,
    toInt_eq hr.right.1 hr.right.2, toInt_eq hc.bottom.1 hc.bottom.2,
    toInt_eq hr.bottom.1 hr.bottom.2, Bool.and_eq_false_iff, Bool.or_eq_false_iff,
    decide_eq_false_iff_not] at h
  simp only [Tile.meet, tile] at h1 h2
  omega

/-- While there is room for four more, a rectangle is replaced by its pieces. -/
theorem clipRound_of_le {list : List Rect} (hr : InInt r) (ha : r.Area) (hc : InInt cut)
    (hn : list.length + 4 ≤ CLIP_MAX_RECTS) : clipRound cut list r = list ++ pieces cut r := by
  rw [clipRound]
  cases h : clipCheckIntersect r cut with
  | true => rw [if_pos ⟨rfl, hn⟩, clipCalculateRect_eq hr ha hc hn]
  | false => rw [if_neg (by simp), if_pos (by omega), pieces_of_not_intersect hr hc h]

/-- After that the others are copied as far as they fit. -/
theorem foldl_of_lt {list : List Rect} (hn : CLIP_MAX_RECTS < list.length + 4)
    (hle : list.length ≤ CLIP_MAX_RECTS) :
    rs.foldl (clipRound cut) list = list ++ rs.take (CLIP_MAX_RECTS - list.length) := by
  induction rs generalizing list with
  | nil => rw [List.take_nil, List.append_nil, List.foldl_nil]
  | cons r rs ih =>
    rw [List.foldl_cons, clipRound, if_neg (by omega)]
    split_ifs with hlt
    · have hlen : (list ++ [r]).length = list.length + 1 := List.length_append
      rw [ih (by omega) (by omega), hlen, List.append_assoc]
      obtain ⟨k, hk⟩ := Nat.exists_eq_add_of_lt hlt
      rw [show CLIP_MAX_RECTS - list.length = k + 1 by omega, List.take_succ_cons,
        show CLIP_MAX_RECTS - (list.length + 1) = k by omega]
      rfl
    · rw [ih hn hle, show CLIP_MAX_RECTS - list.length = 0 by omega, List.take_zero, List.take_zero]

theorem split_append : (split cut n l).1 ++ (split cut n l).2 = l := by
  induction l generalizing n with
  | nil => rfl
  | cons r rs ih =>
    rw [split]
    split_ifs
    · exact congrArg (r :: ·) ih
    · rfl

theorem foldl_eq {list : List Rect} (hl : ∀ r ∈ l, InInt r ∧ r.Area) (hc : InInt cut)
    (hle : list.length ≤ CLIP_MAX_RECTS) :
    l.foldl (clipRound cut) list =
      let front := (split cut list.length l).1.flatMap (pieces cut)
      list ++ front ++
        (split cut list.length l).2.take (CLIP_MAX_RECTS - (list.length + front.length)) := by
  induction l generalizing list with
  | nil => simp [split]
  | cons r rs ih =>
    rw [List.forall_mem_cons] at hl
    by_cases hn : list.length + 4 ≤ CLIP_MAX_RECTS
    · have h4 : (pieces cut r).length ≤ 4 := length_pieces_le
      rw [List.foldl_cons, clipRound_of_le hl.1.1 hl.1.2 hc hn,
        ih hl.2 (by rw [List.length_append]; omega), split, if_pos hn]
      simp only [List.length_append, List.flatMap_cons, List.append_assoc, Nat.add_assoc]
    · rw [foldl_of_lt (by omega) hle, split, if_neg hn]
      simp only [List.flatMap_nil, List.append_nil, List.length_nil, Nat.add_zero]

/-- The pieces of the first rectangles, and of the others those that fit. -/
theorem clipSubtractRectList_eq (hl : ∀ r ∈ l, InInt r ∧ r.Area) (hc : InInt cut) :
    clipSubtractRectList l cut = (front cut l).flatMap (pieces cut) ++
      (back cut l).take (CLIP_MAX_RECTS - frontCount cut l) := by
  rw [clipSubtractRectList, foldl_eq hl hc (Nat.zero_le _)]
  simp only [List.length_nil, List.nil_append, Nat.zero_add]
  rfl

/-! ## What a cut keeps -/

theorem region_append (l l' : List Rect) : region (l ++ l') = region l ∪ region l' := by
  ext p
  simp only [region, List.mem_append, or_and_right, exists_or, Set.mem_ofPred_eq, Set.mem_union]

theorem mem_region_flatMap : p ∈ region (l.flatMap (pieces cut)) ↔
    p ∈ region l ∧ p ∉ (tile cut).cells := by
  constructor
  · rintro ⟨s, hs, hp⟩
    obtain ⟨r, hr, hsr⟩ := List.mem_flatMap.mp hs
    obtain ⟨h1, h2⟩ := mem_region_pieces.mp ⟨s, hsr, hp⟩
    exact ⟨⟨r, hr, h1⟩, h2⟩
  · rintro ⟨⟨r, hr, hp⟩, hc⟩
    obtain ⟨s, hs, hps⟩ := mem_region_pieces.mpr ⟨hp, hc⟩
    exact ⟨s, List.mem_flatMap.mpr ⟨r, hr, hs⟩, hps⟩

theorem cells_subset_of_mem (h : s ∈ pieces cut r) : (tile s).cells ⊆ (tile r).cells := by
  intro p hp
  exact (mem_region_pieces.mp ⟨s, h, hp⟩).1

theorem Apart.flatMap (h : Apart l) : Apart (l.flatMap (pieces cut)) where
  area s hs := by
    obtain ⟨r, hr, hsr⟩ := List.mem_flatMap.mp hs
    exact (pieces_apart (h.area r hr)).area s hsr
  disjoint := by
    apply List.pairwise_flatMap.mpr
    constructor
    · exact fun r hr => (pieces_apart (h.area r hr)).disjoint
    · apply h.disjoint.imp
      intro a b hab x hx y hy
      exact hab.mono (cells_subset_of_mem hx) (cells_subset_of_mem hy)

/-- Pieces of the first rectangles, and some of the others. -/
theorem Apart.part {f b : List Rect} (h : Apart (f ++ b)) (n : ℕ) :
    Apart (f.flatMap (pieces cut) ++ b.take n) where
  area s hs := by
    rcases List.mem_append.mp hs with hs | hs
    · exact (Apart.flatMap ⟨fun r hr => h.area r (List.mem_append_left _ hr),
        (List.pairwise_append.mp h.disjoint).1⟩).area s hs
    · exact h.area s (List.mem_append_right _ (List.mem_of_mem_take hs))
  disjoint := by
    obtain ⟨hf, hb, hfb⟩ := List.pairwise_append.mp h.disjoint
    apply List.pairwise_append.mpr
    refine ⟨?_, hb.sublist (List.take_sublist n b), ?_⟩
    · exact (Apart.flatMap ⟨fun r hr => h.area r (List.mem_append_left _ hr), hf⟩).disjoint
    · intro x hx y hy
      obtain ⟨r, hr, hxr⟩ := List.mem_flatMap.mp hx
      exact (hfb r hr y (List.mem_of_mem_take hy)).mono_left (cells_subset_of_mem hxr)

theorem InInt.of_mem (hr : InInt r) (ha : r.Area) (h : s ∈ pieces cut r) : InInt s := by
  have hs := (pieces_apart ha).area s h
  have hfirst : ((s.x, s.y) : ℤ × ℤ) ∈ (tile r).cells := by
    apply cells_subset_of_mem h
    exact (area_iff.mp hs).corner
  have hlast : ((s.x + s.w - 1, s.y + s.h - 1) : ℤ × ℤ) ∈ (tile r).cells := by
    apply cells_subset_of_mem h
    obtain ⟨h1, h2⟩ := hs
    simp only [Tile.mem_cells, tile]
    omega
  obtain ⟨h1, h2⟩ := hs
  obtain ⟨k1, k2, k3, k4, ⟨k5, k6⟩, k7, k8⟩ := hr
  simp only [Tile.mem_cells, tile] at hfirst hlast
  constructor <;> omega

/-- A list of rectangles that can be cut. -/
structure Clear (l : List Rect) : Prop where
  apart : Apart l
  fits : ∀ r ∈ l, InInt r

theorem front_append_back (cut : Rect) (l : List Rect) : front cut l ++ back cut l = l :=
  split_append

theorem Clear.step (h : Clear l) (hc : InInt cut) : Clear (clipSubtractRectList l cut) := by
  have ha := h.apart
  rw [← front_append_back cut l] at ha
  rw [clipSubtractRectList_eq (fun r hr => ⟨h.fits r hr, h.apart.area r hr⟩) hc]
  refine ⟨ha.part _, ?_⟩
  intro s hs
  rcases List.mem_append.mp hs with hs | hs
  · obtain ⟨r, hr, hsr⟩ := List.mem_flatMap.mp hs
    have hrl : r ∈ l := by
      rw [← front_append_back cut l]
      exact List.mem_append_left _ hr
    exact (h.fits r hrl).of_mem (h.apart.area r hrl) hsr
  · apply h.fits s
    rw [← front_append_back cut l]
    exact List.mem_append_right _ (List.mem_of_mem_take hs)

/-- What is visible after a cut. -/
theorem Clear.mem_region (h : Clear l) (hc : InInt cut) :
    p ∈ region (clipSubtractRectList l cut) ↔
      (p ∈ region (front cut l) ∧ p ∉ (tile cut).cells) ∨
        p ∈ region ((back cut l).take (CLIP_MAX_RECTS - frontCount cut l)) := by
  rw [clipSubtractRectList_eq (fun r hr => ⟨h.fits r hr, h.apart.area r hr⟩) hc, region_append,
    Set.mem_union, mem_region_flatMap]

theorem mem_region_parts : p ∈ region l ↔ p ∈ region (front cut l) ∨
    p ∈ region ((back cut l).take (CLIP_MAX_RECTS - frontCount cut l)) ∨
    p ∈ region ((back cut l).drop (CLIP_MAX_RECTS - frontCount cut l)) := by
  rw [← Set.mem_union, ← Set.mem_union, ← region_append, List.take_append_drop, ← region_append,
    front_append_back]

/-- The rectangles of a list without room share no pixel with the others. -/
theorem Clear.not_mem_of_drop (h : Clear l)
    (hp : p ∈ region ((back cut l).drop (CLIP_MAX_RECTS - frontCount cut l))) :
    p ∉ region (front cut l) ∧
      p ∉ region ((back cut l).take (CLIP_MAX_RECTS - frontCount cut l)) := by
  have hl := h.apart.disjoint
  rw [← front_append_back cut l] at hl
  obtain ⟨-, hb, hfb⟩ := List.pairwise_append.mp hl
  rw [← List.take_append_drop (CLIP_MAX_RECTS - frontCount cut l) (back cut l)] at hb
  obtain ⟨r, hr, hpr⟩ := hp
  constructor
  · rintro ⟨s, hs, hps⟩
    exact Set.disjoint_left.mp (hfb s hs r (List.mem_of_mem_drop hr)) hps hpr
  · rintro ⟨s, hs, hps⟩
    exact Set.disjoint_left.mp ((List.pairwise_append.mp hb).2.2 s hs r hr) hps hpr

/-- One cut. -/
theorem Clear.subtracted_iff (h : Clear l) (hc : InInt cut) :
    Subtracted l cut (clipSubtractRectList l cut) ↔ NoLoss l cut := by
  constructor
  · intro hs
    constructor
    · intro hfit r hr
      apply Set.disjoint_left.mpr
      intro p hp hcut
      have hout : p ∈ region (clipSubtractRectList l cut) :=
        (h.mem_region hc).mpr (.inr ⟨r, hr, hp⟩)
      rw [hs.exact hfit] at hout
      exact hout.2 hcut
    · intro r hr p hp
      by_contra hcut
      have hdrop : p ∈ region ((back cut l).drop (CLIP_MAX_RECTS - frontCount cut l)) := ⟨r, hr, hp⟩
      obtain ⟨h1, h2⟩ := h.not_mem_of_drop hdrop
      have hin : p ∈ region l \ (tile cut).cells := ⟨mem_region_parts.mpr (.inr (.inr hdrop)), hcut⟩
      rcases (h.mem_region hc).mp (hs.covers hin) with hf | hb
      · exact h1 hf.1
      · exact h2 hb
  · intro hn
    have hcover : region l \ (tile cut).cells ⊆ region (clipSubtractRectList l cut) := by
      rintro p ⟨hp, hcut⟩
      rw [h.mem_region hc]
      rcases mem_region_parts.mp hp with hf | hb | ⟨r, hr, hpr⟩
      · exact .inl ⟨hf, hcut⟩
      · exact .inr hb
      · exact absurd (hn.room r hr hpr) hcut
    refine ⟨(h.step hc).apart, ?_, hcover⟩
    intro hfit
    apply Set.Subset.antisymm _ hcover
    intro p hp
    rcases (h.mem_region hc).mp hp with ⟨hf, hcut⟩ | ⟨r, hr, hpr⟩
    · exact ⟨mem_region_parts.mpr (.inl hf), hcut⟩
    · exact ⟨mem_region_parts.mpr (.inr (.inl ⟨r, hr, hpr⟩)),
        Set.disjoint_left.mp (hn.whole hfit r hr) hpr⟩

variable {cuts : List Rect}

/-- The cuts of a run are exact just as far as none loses anything, and then the visible part is
what all of them leave. -/
theorem clipSubtractRectList_run (l cuts : List Rect) (hl : Clear l)
    (hc : ∀ cut ∈ cuts, InInt cut) :
    (Respects (fun l cut => Subtracted l cut (clipSubtractRectList l cut)) clipSubtractRectList
        l cuts ↔ Respects NoLoss clipSubtractRectList l cuts) ∧
    (Respects NoLoss clipSubtractRectList l cuts →
      region l \ region cuts ⊆ region (run clipSubtractRectList l cuts) ∧
      (Respects (fun l cut => (l.flatMap (pieces cut)).length ≤ CLIP_MAX_RECTS)
          clipSubtractRectList l cuts →
        region (run clipSubtractRectList l cuts) = region l \ region cuts)) := by
  induction cuts generalizing l with
  | nil =>
    refine ⟨Iff.rfl, fun _ => ?_⟩
    have hempty : region l \ region [] = region l := by
      ext p
      exact ⟨And.left, fun h => ⟨h, by rintro ⟨r, hr, -⟩; cases hr⟩⟩
    rw [hempty]
    exact ⟨Set.Subset.refl _, fun _ => rfl⟩
  | cons cut cuts ih =>
    rw [List.forall_mem_cons] at hc
    obtain ⟨ih1, ih2⟩ := ih (clipSubtractRectList l cut) (hl.step hc.1) hc.2
    have hiff := hl.subtracted_iff hc.1
    have hcons : region l \ region (cut :: cuts) =
        (region l \ (tile cut).cells) \ region cuts := by
      ext p
      simp only [region, Set.mem_sdiff, Set.mem_ofPred_eq, List.mem_cons, exists_eq_or_imp, not_or,
        and_assoc]
    refine ⟨and_congr hiff ih1, ?_⟩
    rintro ⟨hn, hrest⟩
    have hs := hiff.mpr hn
    obtain ⟨hcover, hexact⟩ := ih2 hrest
    rw [run_cons, hcons]
    refine ⟨(Set.sdiff_subset_sdiff_left hs.covers).trans hcover, ?_⟩
    rintro ⟨hfit, hfits⟩
    rw [hexact hfits, hs.exact hfit]

/-- A hundred rectangles side by side. -/
def row : List Rect := (List.range 100).map fun i : ℕ => ⟨10 * i, 0, 6, 6⟩

theorem row_clear : Clear row where
  apart := by
    constructor
    · intro r hr
      obtain ⟨i, -, rfl⟩ := List.mem_map.mp hr
      exact ⟨show (0 : ℤ) < 6 by decide, show (0 : ℤ) < 6 by decide⟩
    · rw [row, List.pairwise_map]
      apply List.pairwise_lt_range.imp
      intro i j hij
      apply Set.disjoint_left.mpr
      intro p hi hj
      simp only [Tile.mem_cells, tile] at hi hj
      omega
  fits r hr := by
    obtain ⟨i, hi, rfl⟩ := List.mem_map.mp hr
    rw [List.mem_range] at hi
    constructor <;> simp only <;> omega

/-- A cut within the first one leaves no room for the last three. -/
theorem row_not_subtracted : Clear row ∧ InInt ⟨2, 2, 2, 2⟩ ∧
    ¬ Subtracted row ⟨2, 2, 2, 2⟩ (clipSubtractRectList row ⟨2, 2, 2, 2⟩) := by
  refine ⟨row_clear, by constructor <;> decide, ?_⟩
  intro h
  have hin : ((990, 0) : ℤ × ℤ) ∈ region row \ (tile ⟨2, 2, 2, 2⟩).cells := by
    constructor
    · refine ⟨⟨990, 0, 6, 6⟩, by decide, ?_⟩
      rw [Tile.mem_cells]
      decide
    · rw [Tile.mem_cells]
      decide
  obtain ⟨r, hr, hp⟩ := h.covers hin
  have hnone : ∀ r ∈ clipSubtractRectList row ⟨2, 2, 2, 2⟩, ¬ r.x + r.w > 990 := by
    decide +kernel
  exact hnone r hr hp.1.2

/-- Two cuts from one rectangle. -/
theorem clipSubtractRectList_run_two :
    Respects (fun l cut => Subtracted l cut (clipSubtractRectList l cut)) clipSubtractRectList
        [⟨0, 0, 9, 9⟩] [⟨2, 2, 2, 2⟩, ⟨3, 3, 9, 9⟩] ↔
      Respects NoLoss clipSubtractRectList [⟨0, 0, 9, 9⟩] [⟨2, 2, 2, 2⟩, ⟨3, 3, 9, 9⟩] :=
  (clipSubtractRectList_run [⟨0, 0, 9, 9⟩] [⟨2, 2, 2, 2⟩, ⟨3, 3, 9, 9⟩]
    ⟨⟨by
      intro r hr
      rw [List.mem_singleton.mp hr]
      exact ⟨by decide, by decide⟩, List.pairwise_singleton _ _⟩, by
      intro r hr
      rw [List.mem_singleton.mp hr]
      constructor <;> decide⟩
    (by
      intro cut hcut
      rcases List.mem_pair.mp hcut with rfl | rfl <;> constructor <;> decide)).1

end Xeneva.Deodhai.Clip
