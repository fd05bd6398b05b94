import Xeneva.Base.Run

/-!
# Damage of a window

A client draws into the buffer of its window, enters the damaged rectangle in a list that it shares
with the compositor, and sets flags. The compositor looks at the window once a frame: it takes the
list, composes the rectangles and clears the list and the flags. There is no lock; every load and
store of either side is a step of its own, and the steps of the two sides interleave freely. The
pixels of a rectangle that other windows hide are not composed; that part is left out.
-/

namespace Xeneva.Deodhai
open Base

structure Rect where
  x : ℤ := 0
  y : ℤ := 0
  w : ℤ := 0
  h : ℤ := 0
  deriving DecidableEq, Repr

def WIN_MAX_DAMAGE : ℕ := 256

/-- What is left of a rectangle that is published, in a window of the given size. -/
def clampUpdate (width height x y w h : ℤ) : Option Rect :=
  let x := if x < 0 then 0 else x
  let y := if y < 0 then 0 else y
  let w := if w > width then width else w
  let h := if h > height then height else h
  let w := if x + w > width then width - x else w
  let h := if y + h > height then height - y else h
  if w ≤ 0 ∨ h ≤ 0 then none else some ⟨x, y, w, h⟩

/-- How far the client is in `ChWindowUpdate`. -/
inductive Client
  | idle
  /-- The pixels are in the buffer. -/
  | copied (r : Rect) (entire dirty : Bool)
  /-- `rectIndex` is loaded. -/
  | loaded (r : Rect) (entire : Bool) (rectIndex : ℕ)
  /-- The rectangle is in the list, and not counted yet. -/
  | written (r : Rect) (entire : Bool) (rectIndex : ℕ)
  /-- `updateEntireWindow` is stored next. -/
  | listed (entire dirty : Bool)
  /-- `dirty` is stored next. -/
  | flagged (dirty : Bool)
  deriving DecidableEq, Repr

/-- The lists that the compositor walks through in a frame. -/
inductive Kind
  | normal
  | onTop
  | zoomed
  deriving DecidableEq, Repr

/-- What the compositor knows when it comes to the window: `all` is `_window_update_all_` or
`_always_on_top_update`. -/
structure Frame where
  kind : Kind := .normal
  overlapped : Bool := false
  all : Bool := false
  deriving DecidableEq, Repr

/-- What the compositor does next at the window. -/
inductive Comp
  | idle
  | testDirty (f : Frame)
  | testCount (f : Frame)
  | takeLoad (f : Frame)
  | takeCopy (f : Frame) (raw : ℕ)
  | takeCas (f : Frame) (raw : ℕ) (out : List Rect)
  | compose (f : Frame) (damage : List Rect)
  /-- The loop over the list itself, for a window on top. -/
  | walk (f : Frame) (k : ℕ)
  | clearCount (f : Frame)
  | clearDirty (f : Frame)
  | ackDirty (f : Frame)
  | ackCount (f : Frame)
  | ackSet (f : Frame)
  | testEntireCount (f : Frame)
  | testEntire (f : Frame)
  | composeAll (f : Frame)
  | clearEntireTest (f : Frame)
  | clearEntire (f : Frame)
  deriving DecidableEq, Repr

/-- The shared information of a window, where the client and the compositor are, and what is owed:
the rectangles and the full update that are published and not composed since, each with the version
of the buffer that it was published with. -/
structure Win where
  width : ℤ := 0
  height : ℤ := 0
  rect : ℕ → Rect := fun _ => {}
  rectCount : ℕ := 0
  dirty : Bool := false
  updateEntire : Bool := false
  client : Client := .idle
  comp : Comp := .idle
  version : ℕ := 0
  owed : List (Rect × ℕ) := []
  owedEntire : Option ℕ := none

/-- The pixels are copied; a rectangle outside the window is not published. -/
def chWindowUpdate (s : Win) (x y w h : ℤ) (entire dirty : Bool) : Win :=
  match s.client, clampUpdate s.width s.height x y w h with
  | .idle, some r => { s with client := .copied r entire dirty, version := s.version + 1 }
  | _, _ => s

def clientStep (s : Win) : Win :=
  match s.client with
  | .idle => s
  | .copied r entire true => { s with client := .loaded r entire s.rectCount }
  | .copied _ entire false => { s with client := .listed entire false }
  | .loaded r entire i =>
    if i < 256 then { s with rect := Function.update s.rect i r, client := .written r entire i }
    else
      -- a rectangle that finds the list full is dropped, so that only a full update covers it
      { s with
        owed := if entire then s.owed else (r, s.version) :: s.owed
        client := .listed entire true }
  | .written r entire i =>
    { s with rectCount := i + 1, owed := (r, s.version) :: s.owed, client := .listed entire true }
  | .listed entire dirty =>
    { s with
      updateEntire := entire
      owedEntire := if entire then some s.version else s.owedEntire
      client := .flagged dirty }
  | .flagged dirty => { s with dirty := if dirty then true else s.dirty, client := .idle }

/-- The rectangle is composed as it is in the buffer now; an empty one is skipped. -/
def composeRect (s : Win) (r : Rect) : Win :=
  if r.w ≤ 0 ∨ r.h ≤ 0 then s
  else { s with owed := s.owed.filter fun p => p.1 ≠ r ∨ s.version < p.2 }

def composeWindow (s : Win) : Win :=
  { s with
    owed := s.owed.filter fun p => s.version < p.2
    owedEntire := s.owedEntire.filter fun v => s.version < v }

/-- The list as `take_damage` copies it. -/
def copyDamage (s : Win) (raw : ℕ) : List Rect := (List.range (min raw WIN_MAX_DAMAGE)).map s.rect

/-- The loads and stores in their order: the list, for the three kinds of window, then the full
update. -/
def compStep (s : Win) : Win :=
  match s.comp with
  | .idle => s
  | .testDirty f =>
    if s.dirty then
      { s with comp := if f.kind = .zoomed then .composeAll f else .testCount f }
    else { s with comp := if f.kind = .zoomed then .testCount f else .testEntireCount f }
  | .testCount f =>
    match f.kind with
    | .normal =>
      -- a window that is hidden wholly keeps its list
      if s.rectCount > 0 ∧ ¬f.overlapped then { s with comp := .takeLoad f }
      else { s with comp := .testEntireCount f }
    | .onTop =>
      if s.rectCount > 0 then { s with comp := .walk f 0 }
      else { s with comp := .testEntireCount f }
    | .zoomed =>
      if s.rectCount > 0 then { s with comp := .composeAll f } else { s with comp := .testEntire f }
  | .takeLoad f => { s with comp := .takeCopy f s.rectCount }
  | .takeCopy f raw => { s with comp := .takeCas f raw (copyDamage s raw) }
  | .takeCas f raw out =>
    if s.rectCount = raw then { s with rectCount := 0, comp := .compose f out }
    else { s with comp := .takeCopy f s.rectCount }
  | .compose f [] => { s with comp := .clearCount f }
  | .compose f (r :: damage) => { composeRect s r with comp := .compose f damage }
  | .walk f k =>
    if k < s.rectCount then { composeRect s (s.rect k) with comp := .walk f (k + 1) }
    else { s with comp := .clearCount f }
  | .clearCount f => { s with rectCount := 0, comp := .clearDirty f }
  | .clearDirty f =>
    { s with
      dirty := false
      comp := match f.kind with
        | .normal => .ackDirty f
        | .onTop => .testEntireCount f
        | .zoomed => .clearEntire f }
  | .ackDirty f => { s with dirty := false, comp := .ackCount f }
  | .ackCount f =>
    if s.rectCount ≠ 0 then { s with comp := .ackSet f } else { s with comp := .testEntireCount f }
  | .ackSet f => { s with dirty := true, comp := .testEntireCount f }
  | .testEntireCount f =>
    if f.all then
      { s with comp := if f.kind = .normal ∧ f.overlapped then .idle else .composeAll f }
    else if s.rectCount = 0 then { s with comp := .testEntire f }
    else { s with comp := .idle }
  | .testEntire f =>
    if s.updateEntire ∧ ¬(f.kind = .normal ∧ f.overlapped) then { s with comp := .composeAll f }
    else { s with comp := .idle }
  | .composeAll f =>
    { composeWindow s with
      comp := match f.kind with
        | .normal => .clearEntireTest f
        | .onTop => .clearEntire f
        | .zoomed => .clearCount f }
  | .clearEntireTest f => { s with comp := if s.updateEntire then .clearEntire f else .idle }
  | .clearEntire _ => { s with updateEntire := false, comp := .idle }

/-- The compositor comes to the window. -/
def beginFrame (f : Frame) (s : Win) : Win :=
  match s.comp with
  | .idle => { s with comp := .testDirty f }
  | _ => s

inductive Act
  | update (x y w h : ℤ) (entire dirty : Bool)
  | client
  | frame (f : Frame)
  | comp
  deriving DecidableEq, Repr

def winStep (s : Win) : Act → Win
  | .update x y w h entire dirty => chWindowUpdate s x y w h entire dirty
  | .client => clientStep s
  | .frame f => beginFrame f s
  | .comp => compStep s

/-- The windows as they are created. -/
def init (size : ℕ → ℤ × ℤ) : ℕ → Win :=
  fun i => { width := (size i).1, height := (size i).2 }

/-- A step of one of the windows. -/
def step (s : ℕ → Win) (a : ℕ × Act) : ℕ → Win :=
  Function.update s a.1 (winStep (s a.1) a.2)

/-- More steps than the compositor makes at a window in a frame. -/
def FRAME_STEPS : ℕ := 400

/-- The compositor is let to finish its frame, and to make another one. -/
def settle (f : Frame) (s : Win) : Win :=
  compStep^[FRAME_STEPS] (beginFrame f (compStep^[FRAME_STEPS] s))

/-- The rectangle is in the list from position `k` on. -/
def Listed (s : Win) (k : ℕ) (r : Rect) : Prop := ∃ j, k ≤ j ∧ j < s.rectCount ∧ s.rect j = r

/-- The rectangle is in the list, or in the compositor's copy of it. -/
def Held (s : Win) (r : Rect) : Prop :=
  match s.comp with
  | .compose _ damage => r ∈ damage
  | .walk _ k => Listed s k r
  | .clearCount _ => False
  | _ => Listed s 0 r

/-- No rectangle that is owed is discarded. -/
def Kept (s : Win) : Prop := ∀ p ∈ s.owed, Held s p.1

/-- The window is composed in the frame. -/
def Frame.Shows (f : Frame) : Prop := f.kind = .normal → f.overlapped = false

/-- Once the client is done, a frame that shows the window composes all that is owed. -/
def Composed (s : Win) : Prop :=
  s.client = .idle → ∀ f : Frame, f.Shows →
    (settle f s).comp = .idle ∧ (settle f s).owed = [] ∧ (settle f s).owedEntire = none

/-- The compositor has taken the list, or composed the window, and clears the list next. -/
def Comp.dropsCount : Comp → Bool
  | .compose _ _ | .clearCount _ => true
  | _ => false

/-- The compositor clears `dirty` and does not look at the list again. -/
def Comp.dropsDirty : Comp → Bool
  | .clearDirty f => f.kind ≠ .normal
  | _ => false

/-- The compositor has composed the window and clears `updateEntireWindow`. -/
def Comp.dropsEntire : Comp → Bool
  | .clearEntireTest _ | .clearEntire _ => true
  | .clearCount f | .clearDirty f => f.kind = .zoomed
  | _ => false

/-- The list has room when the client looks for it, or the window is updated wholly; nothing is
published while the compositor is about to clear it; and no call takes back a full update. -/
def ClientOk (s : Win) : Client → Prop
  | .copied _ entire true => entire = true ∨ s.rectCount < 256
  | .written _ _ _ => s.comp.dropsCount = false
  | .listed true _ => s.comp.dropsEntire = false
  | .listed false _ => s.owedEntire = none
  | .flagged true => s.comp.dropsDirty = true → s.rectCount = 0
  | _ => True

instance (s : Win) : ∀ c, Decidable (ClientOk s c)
  | .copied _ _ true => inferInstanceAs (Decidable (_ ∨ _))
  | .written _ _ _ => inferInstanceAs (Decidable (_ = _))
  | .listed true _ => inferInstanceAs (Decidable (_ = _))
  | .listed false _ => inferInstanceAs (Decidable (_ = _))
  | .flagged true => inferInstanceAs (Decidable (_ → _))
  | .idle | .copied _ _ false | .loaded _ _ _ | .flagged false => inferInstanceAs (Decidable True)

def StepOk (s : ℕ → Win) (a : ℕ × Act) : Prop :=
  a.2 = .client → ClientOk (s a.1) (s a.1).client

instance (s : ℕ → Win) (a : ℕ × Act) : Decidable (StepOk s a) :=
  inferInstanceAs (Decidable (_ → _))

end Xeneva.Deodhai
