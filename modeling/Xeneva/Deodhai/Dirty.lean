import Xeneva.Deodhai.Damage

/-!
# Dirty rectangles of the screen

What is drawn on the canvas is entered in a list of at most 100 rectangles. Rectangles that touch are
merged, and a full list is collapsed to one. The update clips the list to the canvas and copies or
flushes what is left.
-/

namespace Xeneva.Deodhai.Dirty
open Base

/-- A conversion to `int`. -/
def toInt (z : ℤ) : ℤ := z.bmod (2 ^ 32)

def rectsTouchOrOverlap (a b : Rect) : Bool :=
  a.x ≤ b.x + b.w ∧ b.x ≤ a.x + a.w ∧ a.y ≤ b.y + b.h ∧ b.y ≤ a.y + a.h

/-- Computed in 64 bits, stored in fields of 32. -/
def rectUnion (a b : Rect) : Rect :=
  let left := if a.x < b.x then a.x else b.x
  let top := if a.y < b.y then a.y else b.y
  let right := if a.x + a.w > b.x + b.w then a.x + a.w else b.x + b.w
  let bottom := if a.y + a.h > b.y + b.h then a.y + a.h else b.y + b.h
  ⟨toInt left, toInt top, toInt (right - left), toInt (bottom - top)⟩

/-- The last entry of the list takes the place of the one that is removed. -/
def removeAt (dirtyRect : List Rect) (i : ℕ) : List Rect :=
  (dirtyRect.set i (dirtyRect.getLastD {})).dropLast

theorem length_removeAt (dirtyRect : List Rect) (i : ℕ) :
    (removeAt dirtyRect i).length = dirtyRect.length - 1 := by
  simp [removeAt]

/-- The loop of `AddDirtyClip`; after a merge it starts again. -/
def mergeLoop (incoming : Rect) (dirtyRect : List Rect) (i : ℕ) : Rect × List Rect :=
  if h : i < dirtyRect.length then
    if ¬rectsTouchOrOverlap incoming dirtyRect[i] then mergeLoop incoming dirtyRect (i + 1)
    else mergeLoop (rectUnion incoming dirtyRect[i]) (removeAt dirtyRect i) 0
  else (incoming, dirtyRect)
termination_by (dirtyRect.length, dirtyRect.length - i)
decreasing_by
  · apply Prod.Lex.right
    omega
  · apply Prod.Lex.left
    rw [length_removeAt]
    omega

def DIRTY_MAX : ℕ := 100

/-- `AddDirtyClip` on the first `_dirty_count` entries of the array. -/
def addDirtyClip (dirtyRect : List Rect) (r : Rect) : List Rect :=
  if r.w ≤ 0 ∨ r.h ≤ 0 then dirtyRect
  else
    let (incoming, dirtyRect) := mergeLoop r dirtyRect 0
    if dirtyRect.length < DIRTY_MAX then dirtyRect ++ [incoming]
    else [dirtyRect.foldl rectUnion incoming]

structure Box where
  left : ℤ
  top : ℤ
  right : ℤ
  bottom : ℤ
  deriving DecidableEq, Repr

def Box.extend (b : Box) (r : Rect) : Box where
  left := if r.x < b.left then r.x else b.left
  top := if r.y < b.top then r.y else b.top
  right := if r.x + r.w > b.right then r.x + r.w else b.right
  bottom := if r.y + r.h > b.bottom then r.y + r.h else b.bottom

/-- `DirtyBoundingBox` of the rectangles `r :: rects`. -/
def dirtyBoundingBox (r : Rect) (rects : List Rect) : Box :=
  rects.foldl Box.extend ⟨r.x, r.y, r.x + r.w, r.y + r.h⟩

/-- A rectangle as far as it is on the canvas. -/
def clip (canvasWidth canvasHeight : UInt32) (r : Rect) : Option Rect :=
  let left := if r.x < 0 then 0 else r.x
  let top := if r.y < 0 then 0 else r.y
  let right := if r.x + r.w > canvasWidth.toNat then (canvasWidth.toNat : ℤ) else r.x + r.w
  let bottom := if r.y + r.h > canvasHeight.toNat then (canvasHeight.toNat : ℤ) else r.y + r.h
  if right ≤ left ∨ bottom ≤ top then none
  else some ⟨toInt left, toInt top, toInt (right - left), toInt (bottom - top)⟩

/-- Which way a frame is presented. -/
structure Mode where
  gpu_enabled : Bool
  gpu_userspace : Bool
  xr_present : Bool
  deriving DecidableEq, Repr

/-- What an update asks for: a copy to the screen, its end, damage of the GPU server, a transfer and
flush of the GPU driver, and an update of the mirrored console. -/
inductive Present
  | screenUpdate (r : Rect)
  | screenCommit
  | damage (x y width height : ℕ)
  | flush (x y : ℕ) (w h : ℕ)
  | mirror (x y : ℕ) (w h : ℕ)
  deriving DecidableEq, Repr

/-- A conversion to an unsigned type of this many bits. -/
def toUint (bits : ℕ) (z : ℤ) : ℕ := (z % 2 ^ bits).toNat

def dirtyFlushBounding (userspace : Bool) (b : Box) : Present :=
  if userspace then
    .damage (toUint 32 b.left) (toUint 32 b.top) (toUint 32 (b.right - b.left))
      (toUint 32 (b.bottom - b.top))
  else
    .flush (toUint 16 b.left) (toUint 16 b.top) (toUint 64 (b.right - b.left))
      (toUint 64 (b.bottom - b.top))

/-- The update of the console that the kernel may mirror. -/
def mirrorRequest (b : Box) : Present :=
  .mirror (toUint 16 b.left) (toUint 16 b.top) (toUint 64 (b.right - b.left))
    (toUint 64 (b.bottom - b.top))

/-- What `DirtyScreenUpdate` does for its list of rectangles. -/
def dirtyScreenUpdate (canvasWidth canvasHeight : UInt32) (mode : Mode) (dirtyRect : List Rect) :
    List Present :=
  match dirtyRect.filterMap (clip canvasWidth canvasHeight) with
  | [] => []
  | r :: rects =>
    let box := dirtyBoundingBox r rects
    let copies := (r :: rects).map Present.screenUpdate ++ [.screenCommit]
    if mode.xr_present then
      if mode.gpu_enabled then [dirtyFlushBounding mode.gpu_userspace box] else []
    else if ¬mode.gpu_enabled then
      copies ++ [mirrorRequest box]
    else (if mode.gpu_userspace then copies else []) ++ [dirtyFlushBounding mode.gpu_userspace box]

/-- The list, and the rectangles that were added since the last update. -/
structure State where
  dirtyRect : List Rect := []
  added : List Rect := []

inductive Act
  | add (r : Rect)
  | update
  deriving DecidableEq, Repr

def step (s : State) : Act → State
  | .add r => ⟨addDirtyClip s.dirtyRect r, if r.w ≤ 0 ∨ r.h ≤ 0 then s.added else r :: s.added⟩
  | .update => {}

def Box.pixels (b : Box) : Set (ℤ × ℤ) :=
  { p | (b.left ≤ p.1 ∧ p.1 < b.right) ∧ b.top ≤ p.2 ∧ p.2 < b.bottom }

def rectBox (r : Rect) : Box := ⟨r.x, r.y, r.x + r.w, r.y + r.h⟩

/-- The pixels that are copied or flushed. -/
def Present.region : Present → Set (ℤ × ℤ)
  | .screenUpdate r => (rectBox r).pixels
  | .screenCommit => ∅
  | .damage x y w h | .flush x y w h | .mirror x y w h => (Box.mk x y (x + w) (y + h)).pixels

/-- One request for all of the frame. -/
def Present.isRequest : Present → Bool
  | .damage .. | .flush .. | .mirror .. => true
  | _ => false

/-- The driver's and the mirror's positions have 16 bits. -/
def Present.Addressable (canvasWidth canvasHeight : UInt32) : Present → Prop
  | .flush .. | .mirror .. => canvasWidth.toNat ≤ 2 ^ 16 ∧ canvasHeight.toNat ≤ 2 ^ 16
  | _ => True

def canvas (canvasWidth canvasHeight : UInt32) : Box := ⟨0, 0, canvasWidth.toNat, canvasHeight.toNat⟩

/-- The pixels of the canvas in the rectangles that were added. -/
def damaged (canvasWidth canvasHeight : UInt32) (added : List Rect) : Set (ℤ × ℤ) :=
  { p | p ∈ (canvas canvasWidth canvasHeight).pixels ∧ ∃ r ∈ added, p ∈ (rectBox r).pixels }

/-- The frame is copied to the screen. -/
def Mode.copies (mode : Mode) : Bool :=
  !mode.xr_present && (!mode.gpu_enabled || mode.gpu_userspace)

/-- The frame is asked for as a whole. -/
def Mode.requests (mode : Mode) : Bool := mode.gpu_enabled || !mode.xr_present

/-- An update presents all that was damaged, on the canvas only: by copies where the frame is
copied, and by one request. With XR presentation the frame is on the screen already, and without
a GPU there is nothing to flush. The request is for the least rectangle around those clipped. -/
structure Presents (canvasWidth canvasHeight : UInt32) (mode : Mode) (s : State)
    (out : List Present) : Prop where
  copied : mode.copies → ∀ p ∈ damaged canvasWidth canvasHeight s.added,
    ∃ r, .screenUpdate r ∈ out ∧ p ∈ (rectBox r).pixels
  requested : mode.requests → (damaged canvasWidth canvasHeight s.added).Nonempty →
    ∃ e ∈ out, e.isRequest
  covered : ∀ e ∈ out, e.isRequest → e.Addressable canvasWidth canvasHeight →
    damaged canvasWidth canvasHeight s.added ⊆ e.region
  inside : ∀ e ∈ out, e.Addressable canvasWidth canvasHeight →
    e.region ⊆ (canvas canvasWidth canvasHeight).pixels
  least : ∀ e ∈ out, e.isRequest → e.Addressable canvasWidth canvasHeight → ∀ b : Box,
    (∀ r ∈ s.dirtyRect.filterMap (clip canvasWidth canvasHeight),
      (rectBox r).pixels ⊆ b.pixels) → e.region ⊆ b.pixels

/-- Within the bounds that callers keep. -/
structure Bounded (r : Rect) : Prop where
  x : -2 ^ 30 ≤ r.x ∧ r.x ≤ 2 ^ 30
  y : -2 ^ 30 ≤ r.y ∧ r.y ≤ 2 ^ 30
  w : -2 ^ 30 ≤ r.w ∧ r.w ≤ 2 ^ 30
  h : -2 ^ 30 ≤ r.h ∧ r.h ≤ 2 ^ 30

/-- The rectangle around them has sides that fit in an `int`. -/
def Narrow (added : List Rect) : Prop :=
  ∀ a ∈ added, ∀ b ∈ added, a.x + a.w - b.x < 2 ^ 31 ∧ a.y + a.h - b.y < 2 ^ 31

def Ok (s : State) : Act → Prop
  | .add r => Bounded r ∧ (0 < r.w → 0 < r.h → Narrow (r :: s.added))
  | .update => True

/-! ## What merging keeps -/

variable {a b c d r incoming : Rect} {added l : List Rect} {i : ℕ}

/-- All of one box is in the other. -/
structure Box.Within (a b : Box) : Prop where
  left : b.left ≤ a.left
  right : a.right ≤ b.right
  top : b.top ≤ a.top
  bottom : a.bottom ≤ b.bottom

theorem Box.Within.refl (a : Box) : a.Within a :=
  ⟨Int.le_refl _, Int.le_refl _, Int.le_refl _, Int.le_refl _⟩

theorem Box.Within.trans {a b c : Box} (h : a.Within b) (h' : b.Within c) : a.Within c where
  left := Int.le_trans h'.left h.left
  right := Int.le_trans h.right h'.right
  top := Int.le_trans h'.top h.top
  bottom := Int.le_trans h.bottom h'.bottom

/-- A rectangle whose sides are sides of rectangles that were added. -/
structure Spans (added : List Rect) (d : Rect) : Prop where
  width : 0 < d.w
  height : 0 < d.h
  left : ∃ a ∈ added, d.x = a.x
  right : ∃ a ∈ added, d.x + d.w = a.x + a.w
  top : ∃ a ∈ added, d.y = a.y
  bottom : ∃ a ∈ added, d.y + d.h = a.y + a.h

theorem toInt_eq {z : ℤ} (hlo : -2 ^ 31 ≤ z) (hhi : z < 2 ^ 31) : toInt z = z := by
  unfold toInt
  apply Int.bmod_eq_of_le <;> omega

theorem Spans.of_mem (hr : r ∈ added) (hw : 0 < r.w) (hh : 0 < r.h) : Spans added r :=
  ⟨hw, hh, ⟨r, hr, rfl⟩, ⟨r, hr, rfl⟩, ⟨r, hr, rfl⟩, ⟨r, hr, rfl⟩⟩

theorem Spans.mono {added' : List Rect} (h : Spans added d) (hs : ∀ a ∈ added, a ∈ added') :
    Spans added' d where
  width := h.width
  height := h.height
  left := h.left.imp fun _ ha => ⟨hs _ ha.1, ha.2⟩
  right := h.right.imp fun _ ha => ⟨hs _ ha.1, ha.2⟩
  top := h.top.imp fun _ ha => ⟨hs _ ha.1, ha.2⟩
  bottom := h.bottom.imp fun _ ha => ⟨hs _ ha.1, ha.2⟩

/-- What the rectangles that were added are known to be. -/
structure Known (added : List Rect) : Prop where
  bounded : ∀ a ∈ added, Bounded a
  narrow : Narrow added

theorem Known.x (hk : Known added) (h : Spans added d) : -2 ^ 30 ≤ d.x ∧ d.x ≤ 2 ^ 30 := by
  obtain ⟨a, ha, he⟩ := h.left
  rw [he]
  exact (hk.bounded a ha).x

theorem Known.y (hk : Known added) (h : Spans added d) : -2 ^ 30 ≤ d.y ∧ d.y ≤ 2 ^ 30 := by
  obtain ⟨a, ha, he⟩ := h.top
  rw [he]
  exact (hk.bounded a ha).y

theorem Known.narrow_of (hk : Known added) (h : Spans added c) (h' : Spans added d) :
    c.x + c.w - d.x < 2 ^ 31 ∧ c.y + c.h - d.y < 2 ^ 31 := by
  obtain ⟨a, ha, hr⟩ := h.right
  obtain ⟨b, hb, hl⟩ := h'.left
  obtain ⟨a', ha', hbt⟩ := h.bottom
  obtain ⟨b', hb', ht⟩ := h'.top
  rw [hr, hl, hbt, ht]
  exact ⟨(hk.narrow a ha b hb).1, (hk.narrow a' ha' b' hb').2⟩

/-- Then the union is not cut off, and is the least rectangle around the two. -/
theorem Known.rectUnion (hk : Known added) (h : Spans added c) (h' : Spans added d) :
    Spans added (rectUnion c d) ∧ (rectBox c).Within (rectBox (rectUnion c d)) ∧
      (rectBox d).Within (rectBox (rectUnion c d)) := by
  have hcx := hk.x h
  have hcy := hk.y h
  have hdx := hk.x h'
  have hdy := hk.y h'
  have hcd := hk.narrow_of h h'
  have hdc := hk.narrow_of h' h
  have hcc := hk.narrow_of h h
  have hdd := hk.narrow_of h' h'
  have hcw := h.width
  have hch := h.height
  have hdw := h'.width
  have hdh := h'.height
  have hx : (Dirty.rectUnion c d).x = if c.x < d.x then c.x else d.x :=
    toInt_eq (by split_ifs <;> omega) (by split_ifs <;> omega)
  have hy : (Dirty.rectUnion c d).y = if c.y < d.y then c.y else d.y :=
    toInt_eq (by split_ifs <;> omega) (by split_ifs <;> omega)
  have hw : (Dirty.rectUnion c d).w = (if c.x + c.w > d.x + d.w then c.x + c.w else d.x + d.w) -
      (if c.x < d.x then c.x else d.x) :=
    toInt_eq (by split_ifs <;> omega) (by split_ifs <;> omega)
  have hh : (Dirty.rectUnion c d).h = (if c.y + c.h > d.y + d.h then c.y + c.h else d.y + d.h) -
      (if c.y < d.y then c.y else d.y) :=
    toInt_eq (by split_ifs <;> omega) (by split_ifs <;> omega)
  refine ⟨⟨?_, ?_, ?_, ?_, ?_, ?_⟩, ⟨?_, ?_, ?_, ?_⟩, ⟨?_, ?_, ?_, ?_⟩⟩
  · rw [hw]
    split_ifs <;> omega
  · rw [hh]
    split_ifs <;> omega
  · rw [hx]
    split_ifs
    · exact h.left
    · exact h'.left
  · rw [hx, hw]
    have hr : ∀ l r : ℤ, l + (r - l) = r := by omega
    rw [hr]
    split_ifs
    · exact h.right
    · exact h'.right
  · rw [hy]
    split_ifs
    · exact h.top
    · exact h'.top
  · rw [hy, hh]
    have hr : ∀ l r : ℤ, l + (r - l) = r := by omega
    rw [hr]
    split_ifs
    · exact h.bottom
    · exact h'.bottom
  all_goals
    simp only [rectBox, hx, hy, hw, hh]
    split_ifs <;> omega

theorem mem_removeAt (hi : i < l.length) (hd : d ∈ removeAt l i) : d ∈ l := by
  unfold removeAt at hd
  have hset := (List.dropLast_sublist _).subset hd
  rcases List.mem_or_eq_of_mem_set hset with hm | he
  · exact hm
  · rw [he, List.getLastD_eq_getLast?]
    have hne : l ≠ [] := List.ne_nil_of_length_pos (by omega)
    rw [List.getLast?_eq_some_getLast hne]
    exact List.getLast_mem hne

/-- Only the entry that is merged goes. -/
theorem mem_removeAt_or (hi : i < l.length) (hd : d ∈ l) : d ∈ removeAt l i ∨ d = l[i] := by
  obtain ⟨k, hk, rfl⟩ := List.mem_iff_getElem.mp hd
  by_cases hki : k = i
  · subst hki
    exact .inr rfl
  have hlen := length_removeAt l i
  left
  by_cases hlast : k = l.length - 1
  · -- the last entry moves to the place
    apply List.mem_iff_getElem.mpr
    refine ⟨i, by omega, ?_⟩
    unfold removeAt
    rw [List.getElem_dropLast, List.getElem_set_self]
    have hne : l ≠ [] := List.ne_nil_of_length_pos (by omega)
    rw [List.getLastD_eq_getLast?, List.getLast?_eq_some_getLast hne, Option.getD_some,
      List.getLast_eq_getElem]
    simp only [hlast]
  · apply List.mem_iff_getElem.mpr
    refine ⟨k, by omega, ?_⟩
    unfold removeAt
    rw [List.getElem_dropLast, List.getElem_set_ne (Ne.symm hki)]

/-- The loop merges what touches; no rectangle is lost. -/
theorem mergeLoop_spec (hk : Known added) (hin : Spans added incoming)
    (hl : ∀ d ∈ l, Spans added d) :
    Spans added (mergeLoop incoming l i).1 ∧ (∀ d ∈ (mergeLoop incoming l i).2, Spans added d) ∧
      (rectBox incoming).Within (rectBox (mergeLoop incoming l i).1) ∧
      ∀ d ∈ l, d ∈ (mergeLoop incoming l i).2 ∨
        (rectBox d).Within (rectBox (mergeLoop incoming l i).1) := by
  induction incoming, l, i using mergeLoop.induct with
  | case1 incoming l i h ht ih =>
    rw [mergeLoop, dif_pos h, if_pos ht]
    exact ih hin hl
  | case2 incoming l i h ht ih =>
    rw [mergeLoop, dif_pos h, if_neg ht]
    obtain ⟨hu, hwin, hwi⟩ := hk.rectUnion hin (hl _ (List.getElem_mem h))
    obtain ⟨h1, h2, h3, h4⟩ := ih hu fun d hd => hl d (mem_removeAt h hd)
    refine ⟨h1, h2, hwin.trans h3, ?_⟩
    intro d hd
    rcases mem_removeAt_or h hd with hd | rfl
    · exact h4 d hd
    · exact .inr (hwi.trans h3)
  | case3 incoming l i h =>
    rw [mergeLoop, dif_neg h]
    exact ⟨hin, hl, .refl _, fun d hd => .inl hd⟩

theorem length_mergeLoop (incoming : Rect) (l : List Rect) (i : ℕ) :
    (mergeLoop incoming l i).2.length ≤ l.length := by
  induction incoming, l, i using mergeLoop.induct with
  | case1 incoming l i h ht ih =>
    rw [mergeLoop, dif_pos h, if_pos ht]
    exact ih
  | case2 incoming l i h ht ih =>
    rw [mergeLoop, dif_pos h, if_neg ht]
    rw [length_removeAt] at ih
    omega
  | case3 incoming l i h =>
    rw [mergeLoop, dif_neg h]

theorem foldl_rectUnion (hk : Known added) (hin : Spans added incoming)
    (hl : ∀ d ∈ l, Spans added d) :
    Spans added (l.foldl rectUnion incoming) ∧
      (rectBox incoming).Within (rectBox (l.foldl rectUnion incoming)) ∧
      ∀ d ∈ l, (rectBox d).Within (rectBox (l.foldl rectUnion incoming)) := by
  induction l generalizing incoming with
  | nil => exact ⟨hin, .refl _, fun d hd => absurd hd List.not_mem_nil⟩
  | cons c l ih =>
    obtain ⟨hc, hl⟩ := List.forall_mem_cons.mp hl
    obtain ⟨hu, hwin, hwc⟩ := hk.rectUnion hin hc
    obtain ⟨h1, h2, h3⟩ := ih hu hl
    refine ⟨h1, hwin.trans h2, ?_⟩
    exact List.forall_mem_cons.mpr ⟨hwc.trans h2, h3⟩

/-- The list is not too long. -/
theorem length_addDirtyClip (h : l.length ≤ DIRTY_MAX) (r : Rect) :
    (addDirtyClip l r).length ≤ DIRTY_MAX := by
  unfold addDirtyClip
  have hm := length_mergeLoop r l 0
  split_ifs with h1
  · exact h
  · dsimp only
    split_ifs with h2
    · rw [List.length_append, List.length_singleton]
      omega
    · exact (by decide : 1 ≤ DIRTY_MAX)

/-- Each rectangle that was added is in one of the list. -/
structure Inv (s : State) : Prop where
  known : Known s.added
  positive : ∀ a ∈ s.added, 0 < a.w ∧ 0 < a.h
  spans : ∀ d ∈ s.dirtyRect, Spans s.added d
  within : ∀ a ∈ s.added, ∃ d ∈ s.dirtyRect, (rectBox a).Within (rectBox d)

theorem inv_init : Inv {} := by
  refine ⟨⟨?_, ?_⟩, ?_, ?_, ?_⟩
  all_goals
    intro a ha
    exact absurd ha List.not_mem_nil

theorem Inv.step {s : State} (hi : Inv s) {x : Act} (ho : Ok s x) : Inv (Dirty.step s x) := by
  cases x with
  | update => exact inv_init
  | add r =>
    by_cases hr : r.w ≤ 0 ∨ r.h ≤ 0
    · have hs : Dirty.step s (.add r) = s := by
        simp only [Dirty.step, addDirtyClip, if_pos hr]
      rw [hs]
      exact hi
    rw [not_or, Int.not_le, Int.not_le] at hr
    have hk : Known (r :: s.added) :=
      ⟨List.forall_mem_cons.mpr ⟨ho.1, hi.known.bounded⟩, ho.2 hr.1 hr.2⟩
    have hin : Spans (r :: s.added) r := .of_mem List.mem_cons_self hr.1 hr.2
    have hl : ∀ d ∈ s.dirtyRect, Spans (r :: s.added) d :=
      fun d hd => (hi.spans d hd).mono fun a ha => List.mem_cons_of_mem r ha
    obtain ⟨h1, h2, h3, h4⟩ := mergeLoop_spec (i := 0) hk hin hl
    have hadded : (Dirty.step s (.add r)).added = r :: s.added := by
      unfold Dirty.step
      exact if_neg (by omega)
    have hkeep : (∀ d ∈ addDirtyClip s.dirtyRect r, Spans (r :: s.added) d) ∧
        (∃ d ∈ addDirtyClip s.dirtyRect r, (rectBox r).Within (rectBox d)) ∧
        ∀ c ∈ s.dirtyRect, ∃ d ∈ addDirtyClip s.dirtyRect r, (rectBox c).Within (rectBox d) := by
      unfold addDirtyClip
      rw [if_neg (by omega)]
      dsimp only
      split_ifs with hlen
      · refine ⟨?_, ⟨_, List.mem_append_right _ (List.mem_singleton_self _), h3⟩, ?_⟩
        · intro d hd
          rcases List.mem_append.mp hd with hd | hd
          · exact h2 d hd
          · rw [List.mem_singleton.mp hd]
            exact h1
        · intro c hc
          rcases h4 c hc with hc | hc
          · exact ⟨c, List.mem_append_left _ hc, .refl _⟩
          · exact ⟨_, List.mem_append_right _ (List.mem_singleton_self _), hc⟩
      · obtain ⟨h5, h6, h7⟩ := foldl_rectUnion hk h1 h2
        refine ⟨?_, ⟨_, List.mem_singleton_self _, h3.trans h6⟩, ?_⟩
        · intro d hd
          rw [List.mem_singleton.mp hd]
          exact h5
        · intro c hc
          refine ⟨_, List.mem_singleton_self _, ?_⟩
          rcases h4 c hc with hc | hc
          · exact h7 c hc
          · exact hc.trans h6
    obtain ⟨hspans, hnew, hold⟩ := hkeep
    constructor
    · rw [hadded]
      exact hk
    · rw [hadded]
      exact List.forall_mem_cons.mpr ⟨hr, hi.positive⟩
    · rw [hadded]
      exact hspans
    · rw [hadded]
      intro a ha
      rcases List.mem_cons.mp ha with rfl | ha
      · exact hnew
      · obtain ⟨c, hc, hac⟩ := hi.within a ha
        obtain ⟨d, hd, hcd⟩ := hold c hc
        exact ⟨d, hd, hac.trans hcd⟩

/-! ## What an update presents -/

variable {s : State} {cw ch : UInt32} {mode : Mode} {b box : Box} {rects : List Rect}

theorem Box.Within.pixels {a b : Box} (h : a.Within b) : a.pixels ⊆ b.pixels := by
  intro p hp
  obtain ⟨h1, h2, h3, h4⟩ := h
  obtain ⟨⟨h5, h6⟩, h7, h8⟩ := hp
  exact ⟨⟨by omega, by omega⟩, by omega, by omega⟩

/-- A rectangle that is not empty has its corners. -/
theorem within_of_pixels (hw : 0 < d.w) (hh : 0 < d.h) (hs : (rectBox d).pixels ⊆ b.pixels) :
    (rectBox d).Within b := by
  have hfirst : (d.x, d.y) ∈ (rectBox d).pixels :=
    ⟨⟨Int.le_refl _, by simp only [rectBox]; omega⟩, Int.le_refl _, by simp only [rectBox]; omega⟩
  have hlast : (d.x + d.w - 1, d.y + d.h - 1) ∈ (rectBox d).pixels := by
    refine ⟨⟨?_, ?_⟩, ?_, ?_⟩
    all_goals
      simp only [rectBox]
      omega
  obtain ⟨⟨h1, h2⟩, h3, h4⟩ := hs hfirst
  obtain ⟨⟨h5, h6⟩, h7, h8⟩ := hs hlast
  dsimp only at h1 h2 h3 h4 h5 h6 h7 h8
  constructor
  all_goals
    simp only [rectBox]
    omega

/-- The box around two others. -/
theorem Box.extend_within (b : Box) (r : Rect) :
    b.Within (b.extend r) ∧ (rectBox r).Within (b.extend r) := by
  refine ⟨⟨?_, ?_, ?_, ?_⟩, ⟨?_, ?_, ?_, ?_⟩⟩
  all_goals
    simp only [Box.extend, rectBox]
    split_ifs <;> omega

theorem Box.extend_least {c : Box} (h : b.Within c) (hr : (rectBox r).Within c) :
    (b.extend r).Within c := by
  obtain ⟨h1, h2, h3, h4⟩ := h
  obtain ⟨h5, h6, h7, h8⟩ := hr
  simp only [rectBox] at h5 h6 h7 h8
  constructor
  all_goals
    simp only [Box.extend]
    split_ifs <;> omega

theorem foldl_extend_within (b : Box) (rects : List Rect) :
    b.Within (rects.foldl Box.extend b) ∧
      ∀ d ∈ rects, (rectBox d).Within (rects.foldl Box.extend b) := by
  induction rects generalizing b with
  | nil => exact ⟨.refl b, fun d hd => absurd hd List.not_mem_nil⟩
  | cons r rects ih =>
    obtain ⟨hb, hr⟩ := b.extend_within r
    obtain ⟨h1, h2⟩ := ih (b.extend r)
    exact ⟨hb.trans h1, List.forall_mem_cons.mpr ⟨hr.trans h1, h2⟩⟩

theorem dirtyBoundingBox_within (r : Rect) (rects : List Rect) :
    ∀ d ∈ r :: rects, (rectBox d).Within (dirtyBoundingBox r rects) :=
  List.forall_mem_cons.mpr (foldl_extend_within _ rects)

theorem foldl_extend_least {c : Box} (hb : b.Within c) (h : ∀ d ∈ rects, (rectBox d).Within c) :
    (rects.foldl Box.extend b).Within c := by
  induction rects generalizing b with
  | nil => exact hb
  | cons r rects ih =>
    obtain ⟨hr, h⟩ := List.forall_mem_cons.mp h
    exact ih (b.extend_least hb hr) h

theorem dirtyBoundingBox_least {c : Box} (h : ∀ d ∈ r :: rects, (rectBox d).Within c) :
    (dirtyBoundingBox r rects).Within c := by
  obtain ⟨hr, hrects⟩ := List.forall_mem_cons.mp h
  exact foldl_extend_least hr hrects

/-- What is clipped is what is on the canvas. -/
theorem clip_spec (cw ch : UInt32) (hk : Known added) (h : Spans added d) :
    match clip cw ch d with
    | none => ∀ p ∈ (rectBox d).pixels, p ∉ (canvas cw ch).pixels
    | some c => 0 < c.w ∧ 0 < c.h ∧ (rectBox c).Within (canvas cw ch) ∧
      ∀ p ∈ (rectBox d).pixels, p ∈ (canvas cw ch).pixels → p ∈ (rectBox c).pixels := by
  have hx := hk.x h
  have hy := hk.y h
  have hn := hk.narrow_of h h
  have hw := h.width
  have hh := h.height
  unfold clip
  dsimp only
  generalize hl : (if d.x < 0 then 0 else d.x) = left
  generalize ht : (if d.y < 0 then 0 else d.y) = top
  generalize hr : (if d.x + d.w > cw.toNat then (cw.toNat : ℤ) else d.x + d.w) = right
  generalize hb : (if d.y + d.h > ch.toNat then (ch.toNat : ℤ) else d.y + d.h) = bottom
  have hl' : left = max 0 d.x := by
    rw [← hl]
    split_ifs <;> omega
  have ht' : top = max 0 d.y := by
    rw [← ht]
    split_ifs <;> omega
  have hr' : right = min (cw.toNat : ℤ) (d.x + d.w) := by
    rw [← hr]
    split_ifs <;> omega
  have hb' : bottom = min (ch.toNat : ℤ) (d.y + d.h) := by
    rw [← hb]
    split_ifs <;> omega
  clear hl ht hr hb
  by_cases hempty : right ≤ left ∨ bottom ≤ top
  · rw [if_pos hempty]
    intro p hp hc
    obtain ⟨⟨h1, h2⟩, h3, h4⟩ := hp
    obtain ⟨⟨h5, h6⟩, h7, h8⟩ := hc
    simp only [rectBox, canvas] at h1 h2 h3 h4 h5 h6 h7 h8
    omega
  · rw [if_neg hempty, toInt_eq (by omega) (by omega), toInt_eq (by omega) (by omega),
      toInt_eq (by omega) (by omega), toInt_eq (by omega) (by omega)]
    refine ⟨by dsimp only; omega, by dsimp only; omega, ⟨?_, ?_, ?_, ?_⟩, ?_⟩
    · simp only [rectBox, canvas]
      omega
    · simp only [rectBox, canvas]
      omega
    · simp only [rectBox, canvas]
      omega
    · simp only [rectBox, canvas]
      omega
    · intro p hp hc
      obtain ⟨⟨h1, h2⟩, h3, h4⟩ := hp
      obtain ⟨⟨h5, h6⟩, h7, h8⟩ := hc
      simp only [rectBox, canvas] at h1 h2 h3 h4 h5 h6 h7 h8
      refine ⟨⟨?_, ?_⟩, ?_, ?_⟩
      all_goals
        simp only [rectBox]
        omega

theorem toUint_eq {bits : ℕ} {z : ℤ} (hlo : 0 ≤ z) (hhi : z < 2 ^ bits) : (toUint bits z : ℤ) = z := by
  unfold toUint
  rw [Int.emod_eq_of_lt hlo hhi, Int.toNat_of_nonneg hlo]

/-- A box on the canvas that holds a rectangle. -/
structure OnCanvas (cw ch : UInt32) (b : Box) : Prop where
  width : b.left < b.right
  height : b.top < b.bottom
  within : b.Within (canvas cw ch)

/-- A request for a box on the canvas says which it is. -/
theorem OnCanvas.region (ho : OnCanvas cw ch b) {e : Present}
    (he : (∃ u, e = dirtyFlushBounding u b) ∨ e = mirrorRequest b) :
    e.isRequest ∧ (e.Addressable cw ch → e.region = b.pixels) := by
  obtain ⟨hw, hh, h1, h2, h3, h4⟩ := ho
  have hcw := cw.toNat_lt
  have hch := ch.toNat_lt
  simp only [canvas] at h1 h2 h3 h4
  have hbox : ∀ n : ℕ, n ≤ 64 → b.left < 2 ^ n → b.top < 2 ^ n → ∀ k : ℕ, 32 ≤ k →
      Box.mk (toUint n b.left) (toUint n b.top)
        (toUint n b.left + toUint k (b.right - b.left))
        (toUint n b.top + toUint k (b.bottom - b.top)) = b := by
    intro n _ hl ht k hk
    have hpow : (2 : ℤ) ^ 32 ≤ 2 ^ k := by
      exact_mod_cast Nat.pow_le_pow_right (n := 2) (by decide) hk
    rw [toUint_eq h1 hl, toUint_eq h3 ht, toUint_eq (by omega) (by omega),
      toUint_eq (by omega) (by omega)]
    have hadd : ∀ l r : ℤ, l + (r - l) = r := by omega
    rw [hadd, hadd]
  rcases he with ⟨u, rfl⟩ | rfl
  · cases u with
    | true =>
      refine ⟨rfl, fun _ => ?_⟩
      exact congrArg Box.pixels (hbox 32 (by decide) (by omega) (by omega) 32 (by decide))
    | false =>
      refine ⟨rfl, fun ha => ?_⟩
      obtain ⟨ha1, ha2⟩ : cw.toNat ≤ 2 ^ 16 ∧ ch.toNat ≤ 2 ^ 16 := ha
      exact congrArg Box.pixels (hbox 16 (by decide) (by omega) (by omega) 64 (by decide))
  · refine ⟨rfl, fun ha => ?_⟩
    obtain ⟨ha1, ha2⟩ : cw.toNat ≤ 2 ^ 16 ∧ ch.toNat ≤ 2 ^ 16 := ha
    exact congrArg Box.pixels (hbox 16 (by decide) (by omega) (by omega) 64 (by decide))

/-- What an update asks for, for the rectangles that are on the canvas. -/
theorem dirtyScreenUpdate_eq {l : List Rect} (hc : l.filterMap (clip cw ch) = r :: rects) :
    dirtyScreenUpdate cw ch mode l =
      (if mode.copies then (r :: rects).map Present.screenUpdate ++ [.screenCommit] else []) ++
      (if mode.requests then [if mode.gpu_enabled then
        dirtyFlushBounding mode.gpu_userspace (dirtyBoundingBox r rects)
        else mirrorRequest (dirtyBoundingBox r rects)] else []) := by
  obtain ⟨gpu, user, xr⟩ := mode
  unfold dirtyScreenUpdate
  rw [hc]
  cases xr <;> cases gpu <;> cases user <;> rfl

/-- All damage is in the clipped list, which is on the canvas. -/
theorem Inv.clipped (hi : Inv s) (cw ch : UInt32) :
    (∀ p ∈ damaged cw ch s.added, ∃ c ∈ s.dirtyRect.filterMap (clip cw ch),
      p ∈ (rectBox c).pixels) ∧
    ∀ c ∈ s.dirtyRect.filterMap (clip cw ch), 0 < c.w ∧ 0 < c.h ∧
      (rectBox c).Within (canvas cw ch) := by
  constructor
  · intro p hp
    obtain ⟨hcanvas, a, ha, hpa⟩ := hp
    obtain ⟨d, hd, hw⟩ := hi.within a ha
    have hspec := clip_spec cw ch hi.known (hi.spans d hd)
    cases hc : clip cw ch d with
    | none =>
      rw [hc] at hspec
      exact absurd hcanvas (hspec p (hw.pixels hpa))
    | some c =>
      rw [hc] at hspec
      exact ⟨c, List.mem_filterMap.mpr ⟨d, hd, hc⟩, hspec.2.2.2 p (hw.pixels hpa) hcanvas⟩
  · intro c hc
    obtain ⟨d, hd, hc⟩ := List.mem_filterMap.mp hc
    have hspec := clip_spec cw ch hi.known (hi.spans d hd)
    rw [hc] at hspec
    exact ⟨hspec.1, hspec.2.1, hspec.2.2.1⟩

theorem Inv.presents (hi : Inv s) (cw ch : UInt32) (mode : Mode) :
    Presents cw ch mode s (dirtyScreenUpdate cw ch mode s.dirtyRect) := by
  obtain ⟨hcover, hon⟩ := hi.clipped cw ch
  cases hc : s.dirtyRect.filterMap (clip cw ch) with
  | nil =>
    have hout : dirtyScreenUpdate cw ch mode s.dirtyRect = [] := by
      unfold dirtyScreenUpdate
      rw [hc]
    have hnone : ∀ p, p ∉ damaged cw ch s.added := by
      intro p hp
      obtain ⟨c, hm, -⟩ := hcover p hp
      rw [hc] at hm
      exact List.not_mem_nil hm
    rw [hout]
    refine ⟨fun _ p hp => absurd hp (hnone p), fun _ hn => ?_, fun e he => ?_, fun e he => ?_,
      fun e he => ?_⟩
    · obtain ⟨p, hp⟩ := hn
      exact absurd hp (hnone p)
    all_goals exact absurd he List.not_mem_nil
  | cons r rects =>
    rw [hc] at hcover hon
    have hwithin := dirtyBoundingBox_within r rects
    have hleast : (dirtyBoundingBox r rects).Within (canvas cw ch) :=
      dirtyBoundingBox_least fun d hd => (hon d hd).2.2
    have honc : OnCanvas cw ch (dirtyBoundingBox r rects) := by
      obtain ⟨hw, hh, -⟩ := hon r List.mem_cons_self
      obtain ⟨h1, h2, h3, h4⟩ := hwithin r List.mem_cons_self
      simp only [rectBox] at h1 h2 h3 h4
      exact ⟨by omega, by omega, hleast⟩
    -- the one request of the frame is for the box around all
    have hreq : ∀ e ∈ dirtyScreenUpdate cw ch mode s.dirtyRect,
        (∃ d ∈ r :: rects, e = .screenUpdate d) ∨ e = .screenCommit ∨
          e.isRequest ∧ (e.Addressable cw ch → e.region = (dirtyBoundingBox r rects).pixels) := by
      intro e he
      rw [dirtyScreenUpdate_eq hc] at he
      rcases List.mem_append.mp he with he | he
      · split_ifs at he
        · rcases List.mem_append.mp he with he | he
          · obtain ⟨d, hd, rfl⟩ := List.mem_map.mp he
            exact .inl ⟨d, hd, rfl⟩
          · exact .inr (.inl (List.mem_singleton.mp he))
        · exact absurd he List.not_mem_nil
      · right
        right
        apply honc.region
        split_ifs at he
        · exact .inl ⟨_, List.mem_singleton.mp he⟩
        · exact .inr (List.mem_singleton.mp he)
        · exact absurd he List.not_mem_nil
    refine ⟨?_, ?_, ?_, ?_, ?_⟩
    · intro hm p hp
      obtain ⟨c, hcm, hpc⟩ := hcover p hp
      refine ⟨c, ?_, hpc⟩
      rw [dirtyScreenUpdate_eq hc, if_pos hm]
      apply List.mem_append_left
      apply List.mem_append_left
      exact List.mem_map_of_mem hcm
    · intro hm _
      have hmem : (if mode.gpu_enabled then
          dirtyFlushBounding mode.gpu_userspace (dirtyBoundingBox r rects)
          else mirrorRequest (dirtyBoundingBox r rects)) ∈
          dirtyScreenUpdate cw ch mode s.dirtyRect := by
        rw [dirtyScreenUpdate_eq hc, if_pos hm]
        exact List.mem_append_right _ (List.mem_singleton_self _)
      refine ⟨_, hmem, (honc.region ?_).1⟩
      split_ifs
      · exact .inl ⟨_, rfl⟩
      · exact .inr rfl
    · intro e he hr ha p hp
      rcases hreq e he with ⟨d, -, rfl⟩ | rfl | ⟨-, hreg⟩
      · exact absurd hr Bool.false_ne_true
      · exact absurd hr Bool.false_ne_true
      · rw [hreg ha]
        obtain ⟨c, hcm, hpc⟩ := hcover p hp
        exact (hwithin c hcm).pixels hpc
    · intro e he ha
      rcases hreq e he with ⟨d, hd, rfl⟩ | rfl | ⟨-, hreg⟩
      · exact (hon d hd).2.2.pixels
      · exact Set.empty_subset _
      · rw [hreg ha]
        exact hleast.pixels
    · intro e he hr ha b hb
      rcases hreq e he with ⟨d, -, rfl⟩ | rfl | ⟨-, hreg⟩
      · exact absurd hr Bool.false_ne_true
      · exact absurd hr Bool.false_ne_true
      · rw [hreg ha]
        apply Box.Within.pixels
        apply dirtyBoundingBox_least
        intro d hd
        obtain ⟨hw, hh, -⟩ := hon d hd
        exact within_of_pixels hw hh (hb d (by rw [hc]; exact hd))

/-- In every run whose rectangles since the last update fit in an `int` together, the list keeps
within its array and the next update presents what was added. -/
theorem exec_dirty (as : List Act) (h : Respects Ok step {} as) :
    (run step {} as).dirtyRect.length ≤ DIRTY_MAX ∧ ∀ cw ch mode,
      Presents cw ch mode (run step {} as) (dirtyScreenUpdate cw ch mode (run step {} as).dirtyRect) := by
  constructor
  · have hstep : ∀ (s : State) x, s.dirtyRect.length ≤ DIRTY_MAX →
        (step s x).dirtyRect.length ≤ DIRTY_MAX := by
      intro s x hs
      cases x with
      | add r => exact length_addDirtyClip hs r
      | update => exact Nat.zero_le _
    exact run_invariant (I := fun s : State => s.dirtyRect.length ≤ DIRTY_MAX) hstep as (Nat.zero_le _)
  · exact (h.invariant (fun _ _ hi ho => hi.step ho) inv_init).presents

theorem exec_dirty_three :
    (run step {} [.add ⟨0, 0, 10, 10⟩, .update, .add ⟨5, 5, 10, 10⟩, .add ⟨-5, 20, 8, 8⟩]).dirtyRect.length
      ≤ DIRTY_MAX ∧ ∀ cw ch mode, Presents cw ch mode
        (run step {} [.add ⟨0, 0, 10, 10⟩, .update, .add ⟨5, 5, 10, 10⟩, .add ⟨-5, 20, 8, 8⟩])
        (dirtyScreenUpdate cw ch mode (run step {}
          [.add ⟨0, 0, 10, 10⟩, .update, .add ⟨5, 5, 10, 10⟩, .add ⟨-5, 20, 8, 8⟩]).dirtyRect) := by
  apply exec_dirty
  refine ⟨⟨⟨by decide, by decide, by decide, by decide⟩, fun _ _ => ?_⟩, trivial,
    ⟨⟨by decide, by decide, by decide, by decide⟩, fun _ _ => ?_⟩,
    ⟨⟨by decide, by decide, by decide, by decide⟩, fun _ _ => ?_⟩, trivial⟩
  all_goals simp [Narrow, step]

/-- With XR presentation and no GPU an update does nothing; a rectangle off the canvas may make the
request larger than the damage; two rectangles that are 2 ^ 31 wide together are lost; and the 16
bits of a position may be too few. -/
theorem not_exec_dirty :
    ((0, 0) ∈ damaged 1 1 (run step {} [.add ⟨0, 0, 1, 1⟩]).added ∧
      dirtyScreenUpdate 1 1 ⟨false, false, true⟩ (run step {} [.add ⟨0, 0, 1, 1⟩]).dirtyRect = []) ∧
    (damaged 100 100 (run step {} [.add ⟨0, 0, 10, 10⟩, .add ⟨-5, 5, 5, 95⟩]).added ⊆
        (Box.mk 0 0 10 10).pixels ∧
      dirtyScreenUpdate 100 100 ⟨true, true, true⟩
        (run step {} [.add ⟨0, 0, 10, 10⟩, .add ⟨-5, 5, 5, 95⟩]).dirtyRect = [.damage 0 0 10 100]) ∧
    ((0, 0) ∈ damaged 1 1
        (run step {} [.add ⟨-2 ^ 30, 0, 2 ^ 30, 1⟩, .add ⟨0, 0, 2 ^ 30, 1⟩]).added ∧
      ∀ mode, dirtyScreenUpdate 1 1 mode
        (run step {} [.add ⟨-2 ^ 30, 0, 2 ^ 30, 1⟩, .add ⟨0, 0, 2 ^ 30, 1⟩]).dirtyRect = []) ∧
    ((65536, 0) ∈ damaged 65537 1 (run step {} [.add ⟨65536, 0, 1, 1⟩]).added ∧
      dirtyScreenUpdate 65537 1 ⟨true, false, false⟩ (run step {} [.add ⟨65536, 0, 1, 1⟩]).dirtyRect =
        [.flush 0 0 1 1]) := by
  refine ⟨⟨?_, ?_⟩, ⟨?_, ?_⟩, ⟨?_, ?_⟩, ?_, ?_⟩
  · simp [step, damaged, canvas, rectBox, Box.pixels]
  · simp [step, addDirtyClip, mergeLoop, dirtyScreenUpdate, clip, DIRTY_MAX, toInt]
  · intro p hp
    simp [step, damaged, canvas, rectBox, Box.pixels] at hp ⊢
    omega
  · simp [step, addDirtyClip, mergeLoop, rectsTouchOrOverlap, rectUnion, removeAt, DIRTY_MAX, toInt,
      dirtyScreenUpdate, clip, dirtyBoundingBox, dirtyFlushBounding, toUint]
  · simp [step, damaged, canvas, rectBox, Box.pixels]
  · intro mode
    simp [step, addDirtyClip, mergeLoop, rectsTouchOrOverlap, rectUnion, removeAt, DIRTY_MAX, toInt,
      dirtyScreenUpdate, clip]
  · simp [step, damaged, canvas, rectBox, Box.pixels]
  · simp [step, addDirtyClip, mergeLoop, dirtyScreenUpdate, clip, DIRTY_MAX, toInt,
      dirtyBoundingBox, dirtyFlushBounding, toUint]

end Xeneva.Deodhai.Dirty
