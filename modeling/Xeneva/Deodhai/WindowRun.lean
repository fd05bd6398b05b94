import Xeneva.Deodhai.Window

/-!
# Windows that do not share their buffers

While the counter hands out no key that a window still has, every window has two segments of its own,
whatever the clients do with theirs.
-/

namespace Xeneva.Deodhai.Windows
open Base Mm.Shm

variable {s t : State} {win w v : Window} {l l₁ l₂ : List Window} {event : PostEvent} {mem : BufferMem}
  {key sz : ℕ}

def Window.keys (w : Window) : List ℕ := [w.backBufferKey, w.shWinKey]

/-- The keys of a window with the addresses of their segments. -/
def Window.uses (w : Window) : List (ℕ × ℕ) :=
  [(w.backBufferKey, w.backBuffer), (w.shWinKey, w.sharedInfo)]

/-- The windows have segments, which their keys and ids lead to; no two have a key, a segment or an
id in common. -/
structure Isolated (s : State) : Prop where
  backed : ∀ w ∈ s.windows, ∀ u ∈ w.uses, ∃ k, Holds s.shm deodhai k u.1 u.2 ∧
    auGetSHMSeg s.shm u.1 = some k ∧ auGetSHMByID s.shm (s.shm.seg k).id = some k
  keys : (s.windows.flatMap Window.keys).Nodup
  segments : ∀ w ∈ s.windows, ∀ w' ∈ s.windows, ∀ u ∈ w.uses, ∀ u' ∈ w'.uses, u.1 ≠ u'.1 →
    ∀ k k', Holds s.shm deodhai k u.1 u.2 → Holds s.shm deodhai k' u'.1 u'.2 →
      k ≠ k' ∧ (s.shm.seg k).id ≠ (s.shm.seg k').id

/-- The key is not in use by a window, and the segment is found under the names it gets. -/
structure BufferOk (s : State) (shm : Mm.Shm.State) (key sz : ℕ) (mem : BufferMem) : Prop where
  free : ∀ w ∈ s.windows, key ∉ w.keys
  attach : AttachOk shm deodhai key sz mem.create mem.obtain

/-- The size that a new window asks for. -/
def windowBytes (w h : ℤ) : ℕ := ((w * h * 4).toNat + 31) / 32 * 32 % 2 ^ 32

/-- A new window gets its segments; no key that is handed out is in use by a window. -/
def Ok (s : State) : Act → Prop
  | .client op => OpOk s.shm op ∧ op.caller ≠ some deodhai
  | .create _ _ w h _ _ mem memInfo => 0 < w → 0 < h → w * h ≤ UINT32_MAX / 4 →
    (BufferOk s s.shm s.next_shm_key (windowBytes w h) mem ∧
      Made (windowBytes w h) mem.create mem.obtain) ∧
    BufferOk s (attachKey s.shm deodhai s.next_shm_key (windowBytes w h) mem.create mem.obtain).1
      (deodhaiNextShmKey s.next_shm_key) sizeofWinSharedInfo memInfo ∧
    Made sizeofWinSharedInfo memInfo.create memInfo.obtain
  | .reply event mem => ∀ w ∈ s.windows, Answers event w →
    BufferOk s s.shm s.next_shm_key ((w.resizeW * w.resizeH * 4).toNat % 2 ^ 32) mem
  | _ => True

instance (s : State) (shm : Mm.Shm.State) (key sz : ℕ) (mem : BufferMem) :
    Decidable (BufferOk s shm key sz mem) :=
  decidable_of_iff ((∀ w ∈ s.windows, key ∉ w.keys) ∧
    AttachOk shm deodhai key sz mem.create mem.obtain)
    ⟨fun h => ⟨h.1, h.2⟩, fun h => ⟨h.free, h.attach⟩⟩

instance (s : State) : ∀ a, Decidable (Ok s a)
  | .client op => inferInstanceAs (Decidable (OpOk s.shm op ∧ op.caller ≠ some deodhai))
  | .create _ _ w h _ _ mem memInfo => inferInstanceAs (Decidable
      (0 < w → 0 < h → w * h ≤ UINT32_MAX / 4 →
        (BufferOk s s.shm s.next_shm_key (windowBytes w h) mem ∧
          Made (windowBytes w h) mem.create mem.obtain) ∧
        BufferOk s
          (attachKey s.shm deodhai s.next_shm_key (windowBytes w h) mem.create mem.obtain).1
          (deodhaiNextShmKey s.next_shm_key) sizeofWinSharedInfo memInfo ∧
        Made sizeofWinSharedInfo memInfo.create memInfo.obtain))
  | .reply event mem => inferInstanceAs (Decidable (∀ w ∈ s.windows, Answers event w →
      BufferOk s s.shm s.next_shm_key ((w.resizeW * w.resizeH * 4).toNat % 2 ^ 32) mem))
  | .beginResize .. | .poll _ | .close _ => inferInstanceAs (Decidable True)

/-- What the compositor holds under other keys it holds on to. -/
def Keeps (gone : ℕ → Prop) (s t : Mm.Shm.State) : Prop :=
  ∀ k key addr, ¬gone key → Holds s deodhai k key addr →
    Holds t deodhai k key addr ∧ (t.seg k).num_frames = (s.seg k).num_frames

theorem Keeps.trans {gone gone' : ℕ → Prop} {s t u : Mm.Shm.State} (h : Keeps gone s t)
    (h' : Keeps gone' t u) : Keeps (fun key => gone key ∨ gone' key) s u := by
  intro k key addr hg hh
  rw [not_or] at hg
  obtain ⟨h1, h2⟩ := h k key addr hg.1 hh
  obtain ⟨h3, h4⟩ := h' k key addr hg.2 h1
  exact ⟨h3, h4.trans h2⟩

theorem Keeps.mono {gone gone' : ℕ → Prop} {s t : Mm.Shm.State} (h : Keeps gone s t)
    (hg : ∀ key, gone key → gone' key) : Keeps gone' s t :=
  fun k key addr hn => h k key addr fun hk => hn (hg key hk)

theorem keeps_client {shm : Mm.Shm.State} {op : ShmOp} (hk : Kernel shm) (ho : OpOk shm op)
    (hop : op.caller ≠ some deodhai) : Keeps (fun _ => False) shm (shmStep shm op) := by
  intro k key addr _ hh
  refine ⟨hk.holds ho hh ?_ ?_, (shmStep_seg op hk hh.listed).2.2⟩
  · rintro rfl
    exact hop rfl
  · rintro rfl
    exact hop rfl

theorem keeps_unmap {shm : Mm.Shm.State} (hk : Kernel shm) (key : ℕ) :
    Keeps (· = key) shm (auSHMUnmap shm key deodhai) ∧ Kernel (auSHMUnmap shm key deodhai) := by
  have ho : OpOk shm (.unmap key deodhai) := trivial
  refine ⟨?_, hk.step ho⟩
  intro k key' addr hne hh
  refine ⟨hk.holds ho hh (by simp) ?_, (shmStep_seg (.unmap key deodhai) hk hh.listed).2.2⟩
  intro he
  cases he
  exact hne rfl

theorem keeps_attach {shm : Mm.Shm.State} (hk : Kernel shm)
    (ha : AttachOk shm deodhai key sz mem.create mem.obtain) :
    Keeps (fun _ => False) shm (attachKey shm deodhai key sz mem.create mem.obtain).1 :=
  fun _ _ _ _ hh => hk.attach_holds ha hh

/-- Both segments of a window are held. -/
def Backed (shm : Mm.Shm.State) (w : Window) : Prop :=
  ∀ u ∈ w.uses, ∃ k, Holds shm deodhai k u.1 u.2

theorem Backed.keep {gone : ℕ → Prop} {shm shm' : Mm.Shm.State} (h : Backed shm w)
    (hk : Keeps gone shm shm') (hg : ∀ key ∈ w.keys, ¬gone key) : Backed shm' w := by
  intro u hu
  obtain ⟨k, hh⟩ := h u hu
  refine ⟨k, (hk k u.1 u.2 (hg u.1 ?_) hh).1⟩
  simp only [Window.uses, List.mem_cons, List.not_mem_nil, or_false] at hu
  rcases hu with rfl | rfl <;> simp [Window.keys]

theorem nodup_middle : ((l₁ ++ w :: l₂).flatMap Window.keys).Nodup ↔
    w.keys.Nodup ∧ (∀ v ∈ l₁ ++ l₂, ∀ key ∈ v.keys, key ∉ w.keys) ∧
      ((l₁ ++ l₂).flatMap Window.keys).Nodup := by
  have hperm : ((l₁ ++ w :: l₂).flatMap Window.keys).Perm
      (w.keys ++ (l₁ ++ l₂).flatMap Window.keys) := by
    rw [← List.flatMap_cons]
    exact (List.perm_middle).flatMap_right _
  rw [hperm.nodup_iff, List.nodup_append]
  simp only [List.mem_flatMap]
  constructor
  · intro h
    refine ⟨h.1, ?_, h.2.1⟩
    intro v hv key hkey hw
    exact h.2.2 key hw key ⟨v, hv, hkey⟩ rfl
  · intro h
    refine ⟨h.1, h.2.2, ?_⟩
    intro a ha b hb hab
    obtain ⟨v, hv, hbv⟩ := hb
    exact h.2.1 v hv b hbv (hab ▸ ha)

theorem mem_middle : w ∈ l₁ ++ v :: l₂ ↔ w = v ∨ w ∈ l₁ ++ l₂ := by
  simp only [List.mem_append, List.mem_cons]
  tauto

theorem exists_split {i : ℕ} (h : l[i]? = some win) :
    ∃ l₁ l₂, l = l₁ ++ win :: l₂ ∧ (∀ w, l.set i w = l₁ ++ w :: l₂) ∧ l.eraseIdx i = l₁ ++ l₂ := by
  obtain ⟨hlt, hget⟩ := List.getElem?_eq_some_iff.mp h
  refine ⟨l.take i, l.drop (i + 1), ?_, ?_, List.eraseIdx_eq_take_drop_succ l i⟩
  · rw [← hget, ← List.drop_eq_getElem_cons hlt, List.take_append_drop]
  · intro w
    rw [List.set_eq_take_append_cons_drop, if_pos hlt]

/-- Every window has its two segments, and they are its own. -/
structure WinInv (s : State) : Prop where
  kernel : Kernel s.shm
  alive : (s.shm.proc deodhai).shmmaps.isSome
  keys : (s.windows.flatMap Window.keys).Nodup
  backed : ∀ w ∈ s.windows, Backed s.shm w

theorem nextKey_ne (key : ℕ) : deodhaiNextShmKey key ≠ key := by
  unfold deodhaiNextShmKey DEODHAI_SHM_KEY_LAST DEODHAI_SHM_KEY_FIRST
  split_ifs <;> omega

/-! ## What the calls do -/

theorem createSharedWinSpace_eq (s : State)
    (hm : Made sizeofWinSharedInfo mem.create mem.obtain) :
    createSharedWinSpace s mem =
      let r := attachKey s.shm deodhai s.next_shm_key sizeofWinSharedInfo mem.create mem.obtain
      ({ s with shm := r.1, next_shm_key := deodhaiNextShmKey s.next_shm_key }, s.next_shm_key,
        r.2) := by
  have hid := auCreateSHM_made s.shm s.next_shm_key hm
  unfold createSharedWinSpace attachKey
  dsimp only
  rw [if_neg (by omega)]

/-- The window that is made with these addresses. -/
def newWindow (s : State) (x y w h : ℤ) (flags : UInt16) (ownerId backBuffer sharedInfo : ℕ) :
    Window where
  flags := flags
  ownerId := ownerId
  backBuffer := backBuffer
  sharedInfo := sharedInfo
  shWinKey := deodhaiNextShmKey s.next_shm_key
  backBufferKey := s.next_shm_key
  handle := s.winHandles
  originalW := w
  originalH := h
  info := ⟨x, y, w, h⟩

theorem createWindow_eq {x y w h : ℤ} {flags : UInt16} {ownerId : ℕ} {memInfo : BufferMem}
    (hw : 0 < w) (hh : 0 < h) (hsz : w * h ≤ UINT32_MAX / 4)
    (hm : Made sizeofWinSharedInfo memInfo.create memInfo.obtain) {r₁ r₂ : Mm.Shm.State × ℕ}
    (hr₁ : attachKey s.shm deodhai s.next_shm_key (windowBytes w h) mem.create mem.obtain = r₁)
    (hr₂ : attachKey r₁.1 deodhai (deodhaiNextShmKey s.next_shm_key) sizeofWinSharedInfo
      memInfo.create memInfo.obtain = r₂) (hne : r₂.2 ≠ 0) :
    createWindow s x y w h flags ownerId mem memInfo = ({ s with
      shm := r₂.1
      next_shm_key := deodhaiNextShmKey (deodhaiNextShmKey s.next_shm_key)
      winHandles := (s.winHandles + 1) % 2 ^ 32 },
      some (newWindow s x y w h flags ownerId r₁.2 r₂.2)) := by
  unfold createWindow
  rw [if_neg (by omega)]
  unfold createNewBackBuffer
  dsimp only
  rw [createSharedWinSpace_eq _ hm]
  unfold windowBytes at hr₁
  dsimp only
  rw [hr₁, hr₂]
  exact if_neg hne

/-- A window that is made has the next two keys, and segments for them. -/
theorem createWindow_spec {x y w h : ℤ} {flags : UInt16} {ownerId : ℕ} {mem memInfo : BufferMem}
    (hi : WinInv s) (ho : Ok s (.create x y w h flags ownerId mem memInfo)) (hw : 0 < w)
    (hh : 0 < h) (hsz : w * h ≤ UINT32_MAX / 4) :
    ∃ buffer shared shm, createWindow s x y w h flags ownerId mem memInfo = ({ s with
        shm
        next_shm_key := deodhaiNextShmKey (deodhaiNextShmKey s.next_shm_key)
        winHandles := (s.winHandles + 1) % 2 ^ 32 },
        some (newWindow s x y w h flags ownerId buffer shared)) ∧
      Kernel shm ∧ (shm.proc deodhai).shmmaps.isSome ∧ Keeps (fun _ => False) s.shm shm ∧
      Backed shm (newWindow s x y w h flags ownerId buffer shared) ∧
      (auGetSHMSeg s.shm s.next_shm_key = none →
        ∃ k, Holds shm deodhai k s.next_shm_key buffer ∧
          (shm.seg k).num_frames = numFrames (windowBytes w h)) := by
  obtain ⟨⟨hb₁, hm₁⟩, hb₂, hm₂⟩ := ho hw hh hsz
  obtain ⟨hk₁, hheld₁⟩ := hi.kernel.attach hb₁.attach
  have hkeep₁ := keeps_attach hi.kernel hb₁.attach
  have hne₁ := hi.kernel.attach_ne_zero hb₁.attach hm₁ hi.alive
  have halive₁ := attachKey_alive deodhai s.next_shm_key (windowBytes w h) mem.create mem.obtain
    hi.alive
  generalize hr₁ : attachKey s.shm deodhai s.next_shm_key (windowBytes w h) mem.create
    mem.obtain = r₁ at hb₂ hk₁ hheld₁ hkeep₁ hne₁ halive₁
  obtain ⟨hk₂, hheld₂⟩ := hk₁.attach hb₂.attach
  have hkeep₂ := keeps_attach hk₁ hb₂.attach
  have hne₂ := hk₁.attach_ne_zero hb₂.attach hm₂ halive₁
  have halive₂ := attachKey_alive deodhai (deodhaiNextShmKey s.next_shm_key) sizeofWinSharedInfo
    memInfo.create memInfo.obtain halive₁
  generalize hr₂ : attachKey r₁.1 deodhai (deodhaiNextShmKey s.next_shm_key) sizeofWinSharedInfo
    memInfo.create memInfo.obtain = r₂ at hk₂ hheld₂ hkeep₂ hne₂ halive₂
  obtain ⟨k₁, hh₁, hf₁⟩ := hheld₁ hne₁
  obtain ⟨hh₁', hf₁'⟩ := hkeep₂ k₁ _ _ not_false hh₁
  obtain ⟨k₂, hh₂, -⟩ := hheld₂ hne₂
  refine ⟨r₁.2, r₂.2, r₂.1, ?_, hk₂, halive₂, (hkeep₁.trans hkeep₂).mono (by simp), ?_, ?_⟩
  · exact createWindow_eq hw hh hsz hm₂ hr₁ hr₂ hne₂
  · intro u hu
    simp only [Window.uses, List.mem_cons, List.not_mem_nil, or_false] at hu
    rcases hu with rfl | rfl
    · exact ⟨k₁, hh₁'⟩
    · exact ⟨k₂, hh₂⟩
  · intro hn
    exact ⟨k₁, hh₁', hf₁'.trans (hf₁ hn)⟩

/-- The window with a request to resize it. -/
def Window.asked (w : Window) (now : ℕ) (x y width height : ℤ) : Window :=
  { w with
    resizePending := true
    resizeDeadline := now + RESIZE_TIMEOUT_MS
    resizeX := x
    resizeY := y
    resizeW := width
    resizeH := height
    requests := w.requests + 1 }

/-- The window with a new buffer of the size it was asked for. -/
def Window.resized (w : Window) (key buffer : ℕ) : Window :=
  { w with
    backBuffer := buffer
    backBufferKey := key
    originalW := w.resizeW
    originalH := w.resizeH
    info := ⟨w.resizeX, w.resizeY, w.resizeW, w.resizeH⟩
    reallocs := w.reallocs + 1
    resizePending := false
    resizeDeadline := 0 }

/-- The size that a resize asks for. -/
def Window.resizeBytes (w : Window) : ℕ := (w.resizeW * w.resizeH * 4).toNat % 2 ^ 32

/-- What the client is told when its reply was handled. -/
def reinit (w : Window) (event : PostEvent) : PostEvent where
  type := .reinitBuffer
  dword := w.backBufferKey
  dword4 := w.handle
  dword5 := event.dword5
  to_id := w.ownerId
  from_id := POSTBOX_ROOT_ID

/-- A reply replaces the buffer, or leaves it where there is no memory for another. -/
theorem handleResizeReply_eq (s : State) (mem : BufferMem) (hr : Answers event win) :
    deodhaiHandleResizeReply s win event mem =
      let r := attachKey s.shm deodhai s.next_shm_key win.resizeBytes mem.create mem.obtain
      let win' := if r.2 = 0 then { win with resizePending := false, resizeDeadline := 0 }
        else win.resized s.next_shm_key r.2
      ({ s with
        shm := if r.2 = 0 then r.1 else auSHMUnmap r.1 win.backBufferKey deodhai
        next_shm_key := deodhaiNextShmKey s.next_shm_key
        posted := s.posted ++ [reinit win' event] }, win') := by
  unfold deodhaiHandleResizeReply resizeWindowBackBuffer createNewBackBuffer Window.resizeBytes
  rw [if_neg (not_not.mpr hr)]
  dsimp only
  generalize attachKey s.shm deodhai s.next_shm_key ((win.resizeW * win.resizeH * 4).toNat % 2 ^ 32)
    mem.create mem.obtain = r
  by_cases h0 : r.2 = 0
  · simp only [if_pos h0]
    rfl
  · simp only [if_neg h0]
    rfl

theorem handleResizeReply_of_not (s : State) (hr : ¬Answers event win) :
    deodhaiHandleResizeReply s win event mem = (s, win) := if_pos hr

theorem replyLoop_none (hn : ∀ w ∈ l, ¬Answers event w) : replyLoop event mem l s = (s, l) := by
  induction l with
  | nil => rfl
  | cons w l ih =>
    obtain ⟨hw, hl⟩ := List.forall_mem_cons.mp hn
    unfold replyLoop
    rw [handleResizeReply_of_not s hw]
    dsimp only
    rw [ih hl]

theorem replyLoop_one (h₁ : ∀ w ∈ l₁, ¬Answers event w) (h₂ : ∀ w ∈ l₂, ¬Answers event w) :
    replyLoop event mem (l₁ ++ win :: l₂) s =
      ((deodhaiHandleResizeReply s win event mem).1,
        l₁ ++ (deodhaiHandleResizeReply s win event mem).2 :: l₂) := by
  induction l₁ with
  | nil =>
    rw [List.nil_append]
    unfold replyLoop
    dsimp only
    rw [replyLoop_none h₂]
    rfl
  | cons w l₁ ih =>
    obtain ⟨hw, h₁⟩ := List.forall_mem_cons.mp h₁
    rw [List.cons_append]
    unfold replyLoop
    rw [handleResizeReply_of_not s hw]
    dsimp only
    rw [ih h₁]
    rfl

/-- A reply is for one window at most, as the keys tell them apart. -/
theorem WinInv.reply_cases (hi : WinInv s) (event : PostEvent) :
    (∀ w ∈ s.windows, ¬Answers event w) ∨ ∃ l₁ win l₂, s.windows = l₁ ++ win :: l₂ ∧
      Answers event win ∧ (∀ w ∈ l₁, ¬Answers event w) ∧ ∀ w ∈ l₂, ¬Answers event w := by
  by_cases hn : ∀ w ∈ s.windows, ¬Answers event w
  · exact .inl hn
  right
  push Not at hn
  obtain ⟨win, hm, hr⟩ := hn
  obtain ⟨l₁, l₂, hl⟩ := List.append_of_mem hm
  have hkeys := hi.keys
  rw [hl, nodup_middle] at hkeys
  have hother : ∀ w ∈ l₁ ++ l₂, ¬Answers event w := by
    intro w hw hr'
    apply hkeys.2.1 w hw w.backBufferKey (by simp [Window.keys])
    rw [← hr'.2.2.2.2, hr.2.2.2.2]
    simp [Window.keys]
  exact ⟨l₁, win, l₂, hl, hr, fun w hw => hother w (List.mem_append_left _ hw),
    fun w hw => hother w (List.mem_append_right _ hw)⟩

/-! ## Every step -/

theorem winInv_init : WinInv {} where
  kernel := {
    inv := shmInv_boot
    names := namesInv_boot
    keys := List.nodup_nil
    next_id := by decide
    ids := fun k hk => absurd hk List.not_mem_nil }
  alive := rfl
  keys := List.nodup_nil
  backed := fun w hw => absurd hw List.not_mem_nil

/-- A step that keeps all segments and the keys of the windows. -/
theorem WinInv.congr (hi : WinInv s) (hk : Kernel t.shm) (ha : (t.shm.proc deodhai).shmmaps.isSome)
    (hkeep : Keeps (fun _ => False) s.shm t.shm)
    (hw : t.windows.map Window.uses = s.windows.map Window.uses) : WinInv t := by
  have hkeys : ∀ l : List Window, l.flatMap Window.keys =
      (l.map Window.uses).flatMap fun u => u.map Prod.fst := by
    intro l
    rw [List.flatMap_map]
    rfl
  refine ⟨hk, ha, ?_, ?_⟩
  · rw [hkeys, hw, ← hkeys]
    exact hi.keys
  · intro w hm
    have huses : w.uses ∈ s.windows.map Window.uses := by
      rw [← hw]
      exact List.mem_map_of_mem hm
    obtain ⟨v, hv, he⟩ := List.mem_map.mp huses
    have hback := (hi.backed v hv).keep hkeep fun _ _ => not_false
    unfold Backed at hback ⊢
    rwa [he] at hback

theorem WinInv.reply (hi : WinInv s) (ho : Ok s (.reply event mem)) :
    WinInv { (replyLoop event mem s.windows s).1 with
      windows := (replyLoop event mem s.windows s).2 } := by
  rcases hi.reply_cases event with hn | ⟨l₁, win, l₂, hl, hr, h₁, h₂⟩
  · rw [replyLoop_none hn]
    exact hi
  have hm : win ∈ s.windows := by
    rw [hl]
    exact mem_middle.mpr (.inl rfl)
  obtain ⟨hfree, ha⟩ := ho win hm hr
  obtain ⟨hk₁, hheld₁⟩ := hi.kernel.attach ha
  have hkeep₁ := keeps_attach hi.kernel ha
  have halive₁ := attachKey_alive deodhai s.next_shm_key
    ((win.resizeW * win.resizeH * 4).toNat % 2 ^ 32) mem.create mem.obtain hi.alive
  rw [hl, replyLoop_one h₁ h₂, handleResizeReply_eq s mem hr]
  unfold Window.resizeBytes
  generalize attachKey s.shm deodhai s.next_shm_key ((win.resizeW * win.resizeH * 4).toNat % 2 ^ 32)
    mem.create mem.obtain = r at hk₁ hheld₁ hkeep₁ halive₁
  by_cases h0 : r.2 = 0
  · simp only [if_pos h0]
    apply hi.congr hk₁ halive₁ hkeep₁
    dsimp only
    rw [hl]
    simp [Window.uses]
  · simp only [if_neg h0]
    obtain ⟨hkeep₂, hk₂⟩ := keeps_unmap hk₁ win.backBufferKey
    have halive₂ := shmStep_alive (.unmap win.backBufferKey deodhai) halive₁ (by simp)
    have hkeep : Keeps (· = win.backBufferKey) s.shm _ := (hkeep₁.trans hkeep₂).mono (by simp)
    have hkeys := hi.keys
    rw [hl, nodup_middle] at hkeys
    have hne : ∀ w ∈ s.windows, s.next_shm_key ≠ w.backBufferKey ∧ s.next_shm_key ≠ w.shWinKey := by
      intro w hw
      have hnot := hfree w hw
      simp only [Window.keys, List.mem_cons, List.not_mem_nil, or_false, not_or] at hnot
      exact hnot
    have hrest : ∀ w ∈ l₁ ++ l₂, w ∈ s.windows := by
      intro w hw
      rw [hl]
      exact mem_middle.mpr (.inr hw)
    have hshared : win.shWinKey ≠ win.backBufferKey := by
      have hnodup := hkeys.1
      simp only [Window.keys, List.nodup_cons, List.mem_singleton] at hnodup
      exact Ne.symm hnodup.1
    refine ⟨hk₂, halive₂, ?_, ?_⟩
    · dsimp only
      rw [nodup_middle]
      refine ⟨?_, ?_, hkeys.2.2⟩
      · simp only [Window.keys, Window.resized, List.nodup_cons, List.mem_singleton,
          List.not_mem_nil, not_false_eq_true, List.nodup_nil, and_true]
        exact (hne win hm).2
      · intro w hw key hkey
        simp only [Window.keys, Window.resized, List.mem_cons, List.not_mem_nil, or_false, not_or]
        constructor
        · rintro rfl
          exact hfree w (hrest w hw) hkey
        · rintro rfl
          exact hkeys.2.1 w hw _ hkey (by simp [Window.keys])
    · have hold : ∀ w ∈ l₁ ++ l₂, Backed (auSHMUnmap r.1 win.backBufferKey deodhai) w := by
        intro w hw
        apply (hi.backed w (hrest w hw)).keep hkeep
        rintro key hkey rfl
        exact hkeys.2.1 w hw _ hkey (by simp [Window.keys])
      intro w hw
      rcases mem_middle.mp hw with rfl | hw
      · intro u hu
        simp only [Window.uses, Window.resized, List.mem_cons, List.not_mem_nil, or_false] at hu
        rcases hu with rfl | rfl
        · obtain ⟨k, hh, -⟩ := hheld₁ h0
          exact ⟨k, (hkeep₂ k _ _ (hne win hm).1 hh).1⟩
        · obtain ⟨k, hh⟩ := hi.backed win hm (win.shWinKey, win.sharedInfo) (by simp [Window.uses])
          exact ⟨k, (hkeep k _ _ hshared hh).1⟩
      · exact hold w hw

theorem keeps_refl (shm : Mm.Shm.State) : Keeps (fun _ => False) shm shm :=
  fun _ _ _ _ hh => ⟨hh, rfl⟩

theorem WinInv.sameShm (hi : WinInv s) (hs : t.shm = s.shm)
    (hw : t.windows.map Window.uses = s.windows.map Window.uses) : WinInv t := by
  apply hi.congr _ _ _ hw
  · rw [hs]
    exact hi.kernel
  · rw [hs]
    exact hi.alive
  · rw [hs]
    exact keeps_refl _

theorem WinInv.close (hi : WinInv s) (hl : s.windows = l₁ ++ win :: l₂) :
    WinInv { s with
      shm := auSHMUnmap (auSHMUnmap s.shm win.shWinKey deodhai) win.backBufferKey deodhai
      windows := l₁ ++ l₂ } := by
  obtain ⟨hkeep₁, hk₁⟩ := keeps_unmap hi.kernel win.shWinKey
  have halive₁ := shmStep_alive (.unmap win.shWinKey deodhai) hi.alive (by simp)
  obtain ⟨hkeep₂, hk₂⟩ := keeps_unmap hk₁ win.backBufferKey
  have halive₂ := shmStep_alive (.unmap win.backBufferKey deodhai) halive₁ (by simp)
  have hkeys := hi.keys
  rw [hl, nodup_middle] at hkeys
  refine ⟨hk₂, halive₂, hkeys.2.2, ?_⟩
  intro w hw
  have hm : w ∈ s.windows := by
    rw [hl]
    exact mem_middle.mpr (.inr hw)
  apply (hi.backed w hm).keep (hkeep₁.trans hkeep₂)
  intro key hkey hg
  apply hkeys.2.1 w hw key hkey
  simp only [Window.keys, List.mem_cons, List.not_mem_nil, or_false]
  exact hg.symm

theorem WinInv.create {x y w h : ℤ} {flags : UInt16} {ownerId : ℕ} {mem memInfo : BufferMem}
    (hi : WinInv s) (ho : Ok s (.create x y w h flags ownerId mem memInfo)) :
    WinInv (step s (.create x y w h flags ownerId mem memInfo)) := by
  unfold step
  dsimp only
  split_ifs
  · exact hi
  by_cases hbad : w ≤ 0 ∨ h ≤ 0 ∨ w * h > UINT32_MAX / 4
  · have hnone : createWindow s x y w h flags ownerId mem memInfo = (s, none) := if_pos hbad
    rw [hnone]
    exact hi.sameShm rfl rfl
  have hw : 0 < w := by omega
  have hh : 0 < h := by omega
  have hsz : w * h ≤ UINT32_MAX / 4 := by omega
  obtain ⟨buffer, shared, shm, he, hk, halive, hkeep, hback, -⟩ := createWindow_spec hi ho hw hh hsz
  obtain ⟨⟨hb₁, -⟩, hb₂, -⟩ := ho hw hh hsz
  rw [he]
  dsimp only
  refine ⟨hk, halive, ?_, ?_⟩
  · rw [nodup_middle, List.append_nil]
    refine ⟨?_, ?_, hi.keys⟩
    · simp only [Window.keys, newWindow, List.nodup_cons, List.mem_singleton, List.not_mem_nil,
        not_false_eq_true, List.nodup_nil, and_true]
      exact (nextKey_ne _).symm
    · intro v hv key hkey
      simp only [Window.keys, newWindow, List.mem_cons, List.not_mem_nil, or_false, not_or]
      constructor
      · rintro rfl
        exact hb₁.free v hv hkey
      · rintro rfl
        exact hb₂.free v hv hkey
  · intro v hv
    rcases List.mem_append.mp hv with hv | hv
    · exact (hi.backed v hv).keep hkeep fun _ _ => not_false
    · rw [List.mem_singleton.mp hv]
      exact hback

theorem deodhaiBeginResize_uses {now : ℕ} {x y width height : ℤ} {win' : Window}
    (h : deodhaiBeginResize now win x y width height = some (win', event)) :
    win'.uses = win.uses := by
  unfold deodhaiBeginResize at h
  split_ifs at h
  all_goals
    cases h
    rfl

theorem deodhaiPollResize_uses (now : ℕ) (win : Window) :
    (deodhaiPollResize now win).uses = win.uses := by
  unfold deodhaiPollResize
  split_ifs <;> rfl

theorem WinInv.step (hi : WinInv s) {a : Act} (ho : Ok s a) : WinInv (Windows.step s a) := by
  cases a with
  | client op =>
    have halive := shmStep_alive op hi.alive (by rintro rfl; exact ho.2 rfl)
    exact hi.congr (hi.kernel.step ho.1) halive (keeps_client hi.kernel ho.1 ho.2) rfl
  | create x y w h flags ownerId mem memInfo => exact hi.create ho
  | beginResize i x y width height =>
    unfold Windows.step
    dsimp only
    split_ifs
    · exact hi
    split
    · exact hi
    next win hwin =>
      split
      · exact hi
      next win' event hb =>
        have huses := deodhaiBeginResize_uses hb
        obtain ⟨l₁, l₂, hl, hset, -⟩ := exists_split hwin
        refine hi.sameShm ?_ ?_
        · rfl
        dsimp only
        rw [hset, hl, List.map_append, List.map_cons, List.map_append, List.map_cons, huses]
  | reply event mem =>
    unfold Windows.step
    dsimp only
    split_ifs
    · exact hi
    · exact hi.reply ho
  | poll now =>
    unfold Windows.step
    dsimp only
    split_ifs
    · exact hi
    · refine hi.sameShm ?_ ?_
      · rfl
      · simp [deodhaiPollResize_uses]
  | close i =>
    unfold Windows.step
    dsimp only
    split_ifs
    · exact hi
    split
    · exact hi
    next win hwin =>
      obtain ⟨l₁, l₂, hl, -, herase⟩ := exists_split hwin
      rw [herase]
      exact hi.close hl

/-- A segment of the compositor is at one address only. -/
theorem WinInv.isolated (hi : WinInv s) : Isolated s where
  backed := by
    intro w hw u hu
    obtain ⟨k, hh⟩ := hi.backed w hw u hu
    refine ⟨k, hh, ?_, hi.kernel.names.named.found k hh.listed⟩
    have hkey := hi.kernel.byKey hh.listed
    rwa [hh.key] at hkey
  keys := hi.keys
  segments := by
    intro w _ w' _ u _ u' _ hne k k' hh hh'
    have hkk : k ≠ k' := by
      rintro rfl
      exact hne (hh.key.symm.trans hh'.key)
    refine ⟨hkk, ?_⟩
    intro hid
    exact hkk (List.inj_on_of_nodup_map hi.kernel.names.ids hh.listed hh'.listed hid)

/-- In every run in which no key that is handed out is in use by a window, and each window gets its
segments, no two windows share one. -/
theorem exec_isolated (as : List Act) (h : Respects Ok step {} as) : Isolated (run step {} as) :=
  (h.invariant (fun _ _ hi ho => hi.step ho) winInv_init).isolated

def allMem : BufferMem := ⟨⟨true, true, true, true⟩, ⟨true, true⟩⟩

def noMem : BufferMem := ⟨⟨false, false, false, false⟩, ⟨false, false⟩⟩

/-- A window for process 7. -/
def openWindow : Act := .create 0 0 10 10 0 7 allMem allMem

/-- The client of the first window has detached the buffer with this key. -/
def destroyed (key : ℕ) : PostEvent := ⟨.bufferDestroyed, 7, POSTBOX_ROOT_ID, key, 100, 1⟩

theorem exec_isolated_resized : Isolated (run step {} [openWindow, openWindow,
    .client (.obtain 3 1 ⟨true, true⟩), .beginResize 0 5 5 20 20, .reply (destroyed 1000) allMem,
    .close 1]) := by
  apply exec_isolated
  decide +kernel

/-! ## A key that is handed out again -/

/-- A request to resize the first window for which there is no memory. -/
def failedResize : List Act := [.beginResize 0 0 0 20 20, .reply (destroyed 1000) noMem]

def failedResizes : ℕ → List Act
  | 0 => []
  | n + 1 => failedResize ++ failedResizes n

/-- The segments of one window. -/
def oneWindow : Mm.Shm.State := (step {} openWindow).shm

/-- One window is open, and the next key is this. -/
structure One (key : ℕ) (s : State) : Prop where
  shm : s.shm = oneWindow
  next : s.next_shm_key = key
  running : s.stopped = false
  window : ∃ w, s.windows = [w] ∧ w.resizePending = false ∧ w.flags = 0 ∧
    w.info = ⟨0, 0, 10, 10⟩ ∧ w.ownerId = 7 ∧ w.handle = 100 ∧ w.keys = [1000, 1001]

theorem oneWindow_keys (hkey : 1001 < key) : auGetSHMSeg oneWindow key = none := by
  have hlist : oneWindow.shm_list.map (fun k => (oneWindow.seg k).key) = [1000, 1001] := by
    decide +kernel
  apply List.find?_eq_none.mpr
  intro k hk he
  have hmem := List.mem_map_of_mem (f := fun k => (oneWindow.seg k).key) hk
  rw [hlist] at hmem
  simp only [decide_eq_true_eq] at he
  simp only [he, List.mem_cons, List.not_mem_nil, or_false] at hmem
  omega

theorem oneWindow_attach (hkey : 1001 < key) :
    attachKey oneWindow deodhai key 1600 noMem.create noMem.obtain = (oneWindow, 0) := by
  have hnone := oneWindow_keys hkey
  have hid : auGetSHMByID oneWindow 65535 = none := by decide +kernel
  have hmaps : (oneWindow.proc deodhai).shmmaps.isSome = true := by decide +kernel
  obtain ⟨maps, hmaps⟩ := Option.isSome_iff_exists.mp hmaps
  unfold attachKey auCreateSHM
  rw [hnone]
  dsimp only [noMem]
  unfold auSHMObtainMem
  simp [hmaps, hid]

/-- The window of `One` when the resize has begun. -/
theorem One.begin (h : One key s) : ∃ w event, One key { s with windows := [{ w with
      resizePending := false, resizeDeadline := 0 }] } ∧ Answers (destroyed 1000) w ∧
    w.resizeBytes = 1600 ∧ step s (.beginResize 0 0 0 20 20) = { s with
      windows := [w]
      posted := s.posted ++ [event] } := by
  obtain ⟨hshm, hnext, hrun, w, hwin, hpend, hflags, hinfo, howner, hhandle, hkeys⟩ := h
  have hbuf : w.backBufferKey = 1000 := (List.cons.inj hkeys).1
  have hbegin : ∃ event, deodhaiBeginResize s.now w 0 0 20 20 =
      some (w.asked s.now 0 0 20 20, event) := by
    unfold deodhaiBeginResize
    rw [if_neg (by rw [hpend, hflags]; decide), if_neg (by rw [hinfo]; decide)]
    exact ⟨_, rfl⟩
  obtain ⟨event, hbegin⟩ := hbegin
  refine ⟨w.asked s.now 0 0 20 20, event, ?_, ?_, ?_, ?_⟩
  · exact ⟨hshm, hnext, hrun, _, rfl, rfl, hflags, hinfo, howner, hhandle, hkeys⟩
  · exact ⟨rfl, rfl, howner.symm, hhandle.symm, hbuf.symm⟩
  · show ((20 * 20 * 4 : ℤ).toNat % 2 ^ 32) = 1600
    decide
  · unfold step
    dsimp only
    rw [if_neg (by simp [hrun]), hwin]
    dsimp only [List.getElem?_cons_zero]
    rw [hbegin]
    rfl

/-- A resize without memory uses up a key, and nothing else. -/
theorem One.failed (h : One key s) (hlo : 1001 < key) (hhi : key < DEODHAI_SHM_KEY_LAST) :
    One (key + 1) (run step s failedResize) := by
  obtain ⟨w, event, hone, hanswer, hbytes, hbegin⟩ := h.begin
  obtain ⟨hshm, hnext, hrun, v, hv, -, hflags, hinfo, howner, hhandle, hkeys⟩ := hone
  obtain rfl := (List.cons.inj hv).1
  have hnextKey : deodhaiNextShmKey key = key + 1 := if_neg (by omega)
  have hloop : replyLoop (destroyed 1000) noMem ([] ++ w :: [])
      (step s (.beginResize 0 0 0 20 20)) = _ := replyLoop_one (by simp) (by simp)
  rw [hbegin, handleResizeReply_eq _ noMem hanswer, hbytes] at hloop
  dsimp only at hshm hnext hrun hloop
  rw [hshm, hnext, oneWindow_attach hlo, hnextKey] at hloop
  simp only [if_true, List.nil_append] at hloop
  unfold failedResize
  rw [run_cons, run_cons, run_nil, hbegin]
  unfold step
  dsimp only
  rw [if_neg (by simp [hrun]), hshm, hnext, hloop]
  exact ⟨rfl, rfl, hrun, _, rfl, rfl, hflags, hinfo, howner, hhandle, hkeys⟩

theorem One.failedResizes (n : ℕ) {s : State} {key : ℕ} (h : One key s) (hlo : 1001 < key)
    (hhi : key + n ≤ DEODHAI_SHM_KEY_LAST) : One (key + n) (run step s (failedResizes n)) := by
  induction n generalizing s key with
  | zero => exact h
  | succ n ih =>
    have hstep := ih (h.failed hlo (by omega)) (by omega) (by omega)
    unfold Windows.failedResizes
    rw [run_append]
    rwa [Nat.add_right_comm, Nat.add_assoc] at hstep

/-- A window that is opened after the last key gets that key and the first one. -/
theorem One.collides (h : One DEODHAI_SHM_KEY_LAST s) : ¬Isolated (step s openWindow) := by
  obtain ⟨hshm, hnext, hrun, w, hwin, -, -, -, -, -, hkeys⟩ := h
  have hm : Made sizeofWinSharedInfo allMem.create allMem.obtain := by decide
  have hne : (attachKey (attachKey oneWindow deodhai DEODHAI_SHM_KEY_LAST (windowBytes 10 10)
      allMem.create allMem.obtain).1 deodhai (deodhaiNextShmKey DEODHAI_SHM_KEY_LAST)
      sizeofWinSharedInfo allMem.create allMem.obtain).2 ≠ 0 := by
    decide +kernel
  have hcreate : createWindow s 0 0 10 10 0 7 allMem allMem = _ :=
    createWindow_eq (by decide) (by decide) (by decide) hm rfl rfl (by rw [hshm, hnext]; exact hne)
  intro hi
  have hnodup := hi.keys
  unfold openWindow step at hnodup
  dsimp only at hnodup
  rw [if_neg (by simp [hrun]), hcreate] at hnodup
  dsimp only at hnodup
  rw [hwin, List.singleton_append, List.flatMap_cons, hkeys, List.flatMap_singleton] at hnodup
  unfold Window.keys newWindow at hnodup
  dsimp only at hnodup
  rw [hnext] at hnodup
  revert hnodup
  decide

theorem one_openWindow : One 1002 (step {} openWindow) := by
  have hm : Made sizeofWinSharedInfo allMem.create allMem.obtain := by decide
  have hne : (attachKey (attachKey bootShm deodhai DEODHAI_SHM_KEY_FIRST (windowBytes 10 10)
      allMem.create allMem.obtain).1 deodhai (deodhaiNextShmKey DEODHAI_SHM_KEY_FIRST)
      sizeofWinSharedInfo allMem.create allMem.obtain).2 ≠ 0 := by
    decide +kernel
  have hcreate : createWindow {} 0 0 10 10 0 7 allMem allMem = _ :=
    createWindow_eq (by decide) (by decide) (by decide) hm rfl rfl hne
  refine ⟨rfl, ?_, ?_, ?_⟩
  all_goals
    unfold openWindow step
    dsimp only
    rw [if_neg (by decide), hcreate]
  · rfl
  · exact ⟨_, rfl, rfl, rfl, rfl, rfl, rfl, rfl⟩

theorem not_isolated_round {n : ℕ} (hn : 1002 + n = DEODHAI_SHM_KEY_LAST) :
    ¬Isolated (run step {} (openWindow :: (failedResizes n ++ [openWindow]))) := by
  have hlast := one_openWindow.failedResizes n (by decide) hn.le
  rw [hn] at hlast
  rw [run_cons, run_append]
  exact hlast.collides

/-- A long-lived window loses its buffer to another once the keys have come round. -/
theorem not_exec_isolated :
    ¬Isolated (run step {} (openWindow :: (failedResizes 3598 ++ [openWindow]))) :=
  not_isolated_round rfl

end Xeneva.Deodhai.Windows
