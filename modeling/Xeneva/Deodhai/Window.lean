import Xeneva.Mm.ShmHeld

/-!
# Windows and their buffers

A window has a back buffer and shared information, each in a segment of shared memory whose key
comes from one counter. A resize asks the client to detach the back buffer; when the client replies,
the buffer is replaced by one of the new size. The compositor does not wait for the reply.
-/

namespace Xeneva.Deodhai.Windows
open Base Mm.Shm

def WINDOW_FLAG_NON_RESIZABLE : UInt16 := (1 : UInt16) <<< 3
def WINDOW_FLAG_POPUP : UInt16 := (1 : UInt16) <<< 11
def DEODHAI_SHM_KEY_FIRST : ℕ := 1000
def DEODHAI_SHM_KEY_LAST : ℕ := 4600
def POSTBOX_ROOT_ID : ℕ := 1
def HANDLE_TYPE_NORMAL_WINDOW : ℕ := 1
def HANDLE_TYPE_POPUP_WINDOW : ℕ := 2
def RESIZE_TIMEOUT_MS : ℕ := 1000
def UINT32_MAX : ℤ := 2 ^ 32 - 1
def sizeofWinSharedInfo : ℕ := 4144

/-- The compositor among the processes. -/
def deodhai : ℕ := 0

structure WinSharedInfo where
  x : ℤ
  y : ℤ
  width : ℤ
  height : ℤ
  deriving DecidableEq, Repr

/-- A window; `backBuffer` and `sharedInfo` are addresses. The last two fields count the requests to
resize it that were taken on, and the buffers that were replaced. -/
structure Window where
  flags : UInt16
  ownerId : ℕ
  backBuffer : ℕ
  sharedInfo : ℕ
  shWinKey : ℕ
  backBufferKey : ℕ
  handle : ℕ
  originalW : ℤ
  originalH : ℤ
  resizePending : Bool := false
  resizeDeadline : ℕ := 0
  resizeX : ℤ := 0
  resizeY : ℤ := 0
  resizeW : ℤ := 0
  resizeH : ℤ := 0
  info : WinSharedInfo
  requests : ℕ := 0
  reallocs : ℕ := 0
  deriving DecidableEq, Repr

inductive EventType
  | bufferDestroyed
  | destroyBuffer
  | reinitBuffer
  | other
  deriving DecidableEq, Repr

structure PostEvent where
  type : EventType
  from_id : ℕ
  to_id : ℕ
  dword : ℕ
  dword4 : ℕ
  dword5 : ℕ
  deriving DecidableEq, Repr

/-- The compositor. It stops where it would use a window that was not made. -/
structure State where
  shm : Mm.Shm.State := bootShm
  next_shm_key : ℕ := DEODHAI_SHM_KEY_FIRST
  winHandles : ℕ := 100
  windows : List Window := []
  now : ℕ := 0
  posted : List PostEvent := []
  stopped : Bool := false

/-- Which of their allocations the creation of a segment and its attachment get. -/
structure BufferMem where
  create : CreateMem
  obtain : ObtainMem

def deodhaiNextShmKey (key : ℕ) : ℕ :=
  if key + 1 > DEODHAI_SHM_KEY_LAST then DEODHAI_SHM_KEY_FIRST else key + 1

/-- The key and the address of a back buffer; the address is 0 where there is none. -/
def createNewBackBuffer (s : State) (sz : ℕ) (mem : BufferMem) : State × ℕ × ℕ :=
  let (shm, ptr) := attachKey s.shm deodhai s.next_shm_key (sz % 2 ^ 32) mem.create mem.obtain
  ({ s with shm, next_shm_key := deodhaiNextShmKey s.next_shm_key }, s.next_shm_key, ptr)

/-- The same for shared information, which is not attached if its creation fails. -/
def createSharedWinSpace (s : State) (mem : BufferMem) : State × ℕ × ℕ :=
  let (shm, id) := auCreateSHM s.shm s.next_shm_key sizeofWinSharedInfo mem.create
  let s' := { s with shm, next_shm_key := deodhaiNextShmKey s.next_shm_key }
  if id < 0 then (s', 0, 0)
  else
    let (shm, addr) := auSHMObtainMem shm deodhai (id % 2 ^ 16).toNat mem.obtain
    ({ s' with shm }, s.next_shm_key, addr)

/-- A new buffer takes the place of the old one, unless there is no memory for it. -/
def resizeWindowBackBuffer (s : State) (win : Window) (width height : ℤ) (mem : BufferMem) :
    State × Window × Bool :=
  let (s, key, buffer) := createNewBackBuffer s (width * height * 4).toNat mem
  if buffer = 0 then (s, win, false)
  else
    ({ s with shm := auSHMUnmap s.shm win.backBufferKey deodhai }, { win with
      backBuffer := buffer
      backBufferKey := key
      originalW := width
      originalH := height
      info := { win.info with width, height }
      reallocs := win.reallocs + 1 }, true)

/-- The size of a buffer is rounded up to 32 bytes. -/
def createWindow (s : State) (x y w h : ℤ) (flags : UInt16) (ownerId : ℕ)
    (mem memInfo : BufferMem) : State × Option Window :=
  if w ≤ 0 ∨ h ≤ 0 ∨ w * h > UINT32_MAX / 4 then (s, none)
  else
    let (s, backBufferKey, backBuffer) :=
      createNewBackBuffer s (((w * h * 4).toNat + 31) / 32 * 32) mem
    let (s, shWinKey, sharedInfo) := createSharedWinSpace s memInfo
    if sharedInfo = 0 then (s, none)
    else
      ({ s with winHandles := (s.winHandles + 1) % 2 ^ 32 }, some {
        flags
        ownerId
        backBuffer
        sharedInfo
        shWinKey
        backBufferKey
        handle := s.winHandles
        originalW := w
        originalH := h
        info := ⟨x, y, w, h⟩ })

/-- `none` where the request is not taken on. -/
def deodhaiBeginResize (now : ℕ) (win : Window) (x y width height : ℤ) :
    Option (Window × PostEvent) :=
  if win.resizePending ∨ win.flags &&& WINDOW_FLAG_NON_RESIZABLE ≠ 0 ∨ width ≤ 0 ∨ height ≤ 0 ∨
      width * height > UINT32_MAX / 4 then none
  else if width = win.info.width ∧ height = win.info.height then none
  else some ({ win with
    resizePending := true
    resizeDeadline := now + RESIZE_TIMEOUT_MS
    resizeX := x
    resizeY := y
    resizeW := width
    resizeH := height
    requests := win.requests + 1 }, {
    type := .destroyBuffer
    to_id := win.ownerId
    from_id := POSTBOX_ROOT_ID
    dword := win.backBufferKey
    dword4 := win.handle
    dword5 := if win.flags &&& WINDOW_FLAG_POPUP ≠ 0 then HANDLE_TYPE_POPUP_WINDOW
      else HANDLE_TYPE_NORMAL_WINDOW })

/-- The event is the reply to the request of the window. -/
def Answers (event : PostEvent) (win : Window) : Prop :=
  win.resizePending ∧ event.type = .bufferDestroyed ∧ event.from_id = win.ownerId ∧
    event.dword4 = win.handle ∧ event.dword = win.backBufferKey

instance (event : PostEvent) (win : Window) : Decidable (Answers event win) :=
  inferInstanceAs (Decidable (_ ∧ _))

/-- The client is told of the buffer that the window has then, new or old. -/
def deodhaiHandleResizeReply (s : State) (win : Window) (event : PostEvent) (mem : BufferMem) :
    State × Window :=
  if ¬Answers event win then (s, win)
  else
    let (s, win, resized) := resizeWindowBackBuffer s win win.resizeW win.resizeH mem
    let win := if resized then { win with info := { win.info with
      x := win.resizeX
      y := win.resizeY } } else win
    ({ s with posted := s.posted ++ [{
        type := .reinitBuffer
        dword := win.backBufferKey
        dword4 := win.handle
        dword5 := event.dword5
        to_id := win.ownerId
        from_id := POSTBOX_ROOT_ID }] },
      { win with resizePending := false, resizeDeadline := 0 })

/-- After its deadline a request stays, but the window takes on no other. -/
def deodhaiPollResize (now : ℕ) (win : Window) : Window :=
  if ¬win.resizePending ∨ win.resizeDeadline = 0 ∨ now < win.resizeDeadline then win
  else { win with flags := win.flags ||| WINDOW_FLAG_NON_RESIZABLE, resizeDeadline := 0 }

/-- What happens to the compositor; `client` is a call of another process. Windows are given by their
places in the lists. -/
inductive Act
  | create (x y w h : ℤ) (flags : UInt16) (ownerId : ℕ) (mem memInfo : BufferMem)
  | beginResize (i : ℕ) (x y width height : ℤ)
  | reply (event : PostEvent) (mem : BufferMem)
  | poll (now : ℕ)
  | close (i : ℕ)
  | client (op : ShmOp)

/-- The loop over the windows when a client has replied. -/
def replyLoop (event : PostEvent) (mem : BufferMem) : List Window → State → State × List Window
  | [], s => (s, [])
  | win :: rest, s =>
    let (s, win) := deodhaiHandleResizeReply s win event mem
    let (s, rest) := replyLoop event mem rest s
    (s, win :: rest)

def step (s : State) : Act → State
  | .client op => { s with shm := shmStep s.shm op }
  | .create x y w h flags ownerId mem memInfo =>
    if s.stopped then s
    else match createWindow s x y w h flags ownerId mem memInfo with
      | (s, none) => { s with stopped := true }
      | (s, some win) => { s with windows := s.windows ++ [win] }
  | .beginResize i x y width height =>
    if s.stopped then s
    else match s.windows[i]? with
      | none => s
      | some win => match deodhaiBeginResize s.now win x y width height with
        | none => s
        | some (win, event) =>
          { s with windows := s.windows.set i win, posted := s.posted ++ [event] }
  | .reply event mem =>
    if s.stopped then s
    else
      let (s, windows) := replyLoop event mem s.windows s
      { s with windows }
  | .poll now =>
    if s.stopped then s
    else { s with now, windows := s.windows.map (deodhaiPollResize now) }
  | .close i =>
    if s.stopped then s
    else match s.windows[i]? with
      | none => s
      | some win =>
        { s with
          shm := auSHMUnmap (auSHMUnmap s.shm win.shWinKey deodhai) win.backBufferKey deodhai
          windows := s.windows.eraseIdx i }

end Xeneva.Deodhai.Windows
