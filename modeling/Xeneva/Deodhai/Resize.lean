import Xeneva.Deodhai.WindowRun

/-!
# Resizing a window

A request to resize a window waits for its client. Until the client has detached the old buffer, the
compositor keeps it, takes on no other request, and keeps the size that was asked for.
-/

namespace Xeneva.Deodhai.Windows
open Base Mm.Shm

variable {s t : State} {win w v : Window} {l l₁ l₂ : List Window} {event : PostEvent}
  {mem : BufferMem} {key : ℕ} {a : Act}

/-- The size that the client is told is the size of the buffer that it is told of. -/
def Sized (shm : Mm.Shm.State) (w : Window) : Prop :=
  ∃ k, Holds shm deodhai k w.backBufferKey w.backBuffer ∧
    (shm.seg k).num_frames = numFrames (w.info.width * w.info.height * 4).toNat

/-- Buffers are replaced for requests only, once for each. -/
def Counted (w : Window) : Prop := w.reallocs + (if w.resizePending then 1 else 0) ≤ w.requests

/-- The client has replied to the request of the window, or the window is closed. -/
def Ends (key : ℕ) (s : State) : Act → Prop
  | .reply event _ => s.stopped = false ∧ ∃ w ∈ s.windows, w.backBufferKey = key ∧ Answers event w
  | .close i => s.stopped = false ∧ ∃ w ∈ s.windows[i]?, w.backBufferKey = key
  | _ => False

/-- The window has the same buffer and the same size, and its request if it has one. -/
structure Continues (w w' : Window) : Prop where
  uses : w'.uses = w.uses
  info : w'.info = w.info
  name : w'.handle = w.handle ∧ w'.ownerId = w.ownerId
  reallocs : w'.reallocs = w.reallocs
  pending : w.resizePending → w'.resizePending ∧ w'.requests = w.requests ∧
    w'.resizeX = w.resizeX ∧ w'.resizeY = w.resizeY ∧ w'.resizeW = w.resizeW ∧
    w'.resizeH = w.resizeH

/-- The window is there still, with its buffer. -/
def Stays (s t : State) (w : Window) : Prop :=
  (∃ w' ∈ t.windows, Continues w w') ∧ ∀ k addr, Holds s.shm deodhai k w.backBufferKey addr →
    Holds t.shm deodhai k w.backBufferKey addr

/-- All memory is there that a buffer needs. -/
def BufferMem.All (mem : BufferMem) : Prop :=
  (mem.create.shm ∧ mem.create.frames ∧ mem.create.pages ∧ mem.create.entry) ∧ mem.obtain.mapping

/-- The client is told of a buffer: a new one of the size that was asked for, or the old one where
there was no memory. -/
structure Completed (s t : State) (w w' : Window) (event : PostEvent) (mem : BufferMem) : Prop where
  idle : w'.resizePending = false
  name : w'.handle = w.handle ∧ w'.ownerId = w.ownerId ∧ w'.requests = w.requests
  told : t.posted = s.posted ++ [reinit w' event]
  size : (w'.info = ⟨w.resizeX, w.resizeY, w.resizeW, w.resizeH⟩ ∧ w'.reallocs = w.reallocs + 1) ∨
    (¬mem.All ∧ w'.info = w.info ∧ w'.uses = w.uses ∧ w'.reallocs = w.reallocs)

/-- What a step does about a window: no request is taken on while there is one, one that is taken on
is kept, and a reply completes it, however late. -/
structure Resizes (s : State) (w : Window) : Prop where
  refused : w.resizePending → ∀ i x y width height, s.windows[i]? = some w →
    step s (.beginResize i x y width height) = s
  accepted : ∀ x y width height w' event,
    deodhaiBeginResize s.now w x y width height = some (w', event) →
      w' = w.asked s.now x y width height ∧ 0 < width ∧ 0 < height ∧ event.dword = w.backBufferKey
  completed : s.stopped = false → ∀ event mem, Answers event w → Ok s (.reply event mem) →
    ∃ w' ∈ (step s (.reply event mem)).windows, Completed s (step s (.reply event mem)) w w' event mem

/-- The key of a new back buffer is not the key of a segment. -/
def Fresh (s : State) : Act → Prop
  | .create _ _ w h .. => 0 < w → 0 < h → w * h ≤ UINT32_MAX / 4 →
    auGetSHMSeg s.shm s.next_shm_key = none
  | .reply event _ => ∀ w ∈ s.windows, Answers event w → auGetSHMSeg s.shm s.next_shm_key = none
  | _ => True

instance (s : State) : ∀ a, Decidable (Fresh s a)
  | .create _ _ w h .. => inferInstanceAs (Decidable (0 < w → 0 < h → w * h ≤ UINT32_MAX / 4 →
      auGetSHMSeg s.shm s.next_shm_key = none))
  | .reply event _ => inferInstanceAs (Decidable (∀ w ∈ s.windows, Answers event w →
      auGetSHMSeg s.shm s.next_shm_key = none))
  | .client _ | .beginResize .. | .poll _ | .close _ => inferInstanceAs (Decidable True)

theorem numFrames_round (n : ℕ) : numFrames ((n + 31) / 32 * 32) = numFrames n := by
  unfold numFrames PAGE_SIZE
  split_ifs <;> omega

/-- Rounded up, the size does not wrap if it stays positive. -/
theorem windowBytes_frames {w h : ℤ} (hsz : w * h ≤ UINT32_MAX / 4)
    (hpos : 0 < numFrames (windowBytes w h)) :
    numFrames (windowBytes w h) = numFrames (w * h * 4).toNat := by
  unfold UINT32_MAX at hsz
  have hle : ((w * h * 4).toNat + 31) / 32 * 32 ≤ 2 ^ 32 := by omega
  unfold windowBytes at hpos ⊢
  rcases Nat.lt_or_eq_of_le hle with hlt | heq
  · rw [Nat.mod_eq_of_lt hlt, numFrames_round]
  · rw [heq] at hpos
    exact absurd hpos (by decide)

theorem resizeBytes_eq (h : w.resizeW * w.resizeH ≤ UINT32_MAX / 4) :
    w.resizeBytes = (w.resizeW * w.resizeH * 4).toNat := by
  unfold UINT32_MAX at h
  exact Nat.mod_eq_of_lt (by omega)

/-- A size that a request may have needs a number of frames that `kmalloc` can list. -/
theorem made_of_all (hw : 0 < w.resizeW) (hh : 0 < w.resizeH)
    (hsz : w.resizeW * w.resizeH ≤ UINT32_MAX / 4) (hall : mem.All) :
    Made w.resizeBytes mem.create mem.obtain := by
  have hpos : 0 < w.resizeW * w.resizeH := Int.mul_pos hw hh
  refine ⟨hall.1, ?_, hall.2⟩
  rw [resizeBytes_eq hsz]
  unfold UINT32_MAX at hsz
  unfold numFrames PAGE_SIZE
  split_ifs <;> omega

theorem Continues.refl (w : Window) : Continues w w :=
  ⟨rfl, rfl, ⟨rfl, rfl⟩, rfl, fun h => ⟨h, rfl, rfl, rfl, rfl, rfl⟩⟩

theorem Continues.trans {u : Window} (h : Continues u v) (h' : Continues v w) : Continues u w where
  uses := h'.uses.trans h.uses
  info := h'.info.trans h.info
  name := ⟨h'.name.1.trans h.name.1, h'.name.2.trans h.name.2⟩
  reallocs := h'.reallocs.trans h.reallocs
  pending := by
    intro hp
    obtain ⟨hp', h1, h2, h3, h4, h5⟩ := h.pending hp
    obtain ⟨hp'', h1', h2', h3', h4', h5'⟩ := h'.pending hp'
    exact ⟨hp'', h1'.trans h1, h2'.trans h2, h3'.trans h3, h4'.trans h4, h5'.trans h5⟩

theorem Continues.sameKey (h : Continues v w) : w.backBufferKey = v.backBufferKey :=
  congrArg Prod.fst (List.cons.inj h.uses).1

theorem begin_cases {now : ℕ} {x y width height : ℤ}
    (h : deodhaiBeginResize now win x y width height = some (w, event)) :
    w = win.asked now x y width height ∧ win.resizePending = false ∧ 0 < width ∧ 0 < height ∧
      width * height ≤ UINT32_MAX / 4 ∧ event.dword = win.backBufferKey := by
  unfold deodhaiBeginResize at h
  split_ifs at h with hbad
  all_goals
    push Not at hbad
    cases h
    exact ⟨rfl, Bool.eq_false_of_not_eq_true hbad.1, hbad.2.2.1, hbad.2.2.2.1, hbad.2.2.2.2, rfl⟩

theorem asked_continues {now : ℕ} {x y width height : ℤ} (h : win.resizePending = false) :
    Continues win (win.asked now x y width height) := by
  refine ⟨rfl, rfl, ⟨rfl, rfl⟩, rfl, ?_⟩
  intro hp
  rw [h] at hp
  cases hp

/-- After its deadline a window keeps its request. -/
theorem poll_continues (now : ℕ) (win : Window) : Continues win (deodhaiPollResize now win) := by
  unfold deodhaiPollResize
  split_ifs
  · exact .refl win
  · exact ⟨rfl, rfl, ⟨rfl, rfl⟩, rfl, fun h => ⟨h, rfl, rfl, rfl, rfl, rfl⟩⟩

/-- What is known of a window between steps. -/
structure Good (shm : Mm.Shm.State) (w : Window) : Prop where
  sized : Sized shm w
  counted : Counted w
  valid : w.resizePending → 0 < w.resizeW ∧ 0 < w.resizeH ∧ w.resizeW * w.resizeH ≤ UINT32_MAX / 4

theorem Good.keep {gone : ℕ → Prop} {shm shm' : Mm.Shm.State} (h : Good shm w)
    (hk : Keeps gone shm shm') (hg : ¬gone w.backBufferKey) : Good shm' w := by
  obtain ⟨k, hh, hf⟩ := h.sized
  obtain ⟨hh', hf'⟩ := hk k _ _ hg hh
  exact ⟨⟨k, hh', hf'.trans hf⟩, h.counted, h.valid⟩

theorem Good.poll {shm : Mm.Shm.State} (h : Good shm w) (now : ℕ) :
    Good shm (deodhaiPollResize now w) := by
  unfold deodhaiPollResize
  split_ifs
  · exact h
  · exact ⟨h.sized, h.counted, h.valid⟩

theorem Good.asked {shm : Mm.Shm.State} {now : ℕ} {x y width height : ℤ} (h : Good shm w)
    (hp : w.resizePending = false) (hw : 0 < width) (hh : 0 < height)
    (hsz : width * height ≤ UINT32_MAX / 4) : Good shm (w.asked now x y width height) := by
  refine ⟨h.sized, ?_, fun _ => ⟨hw, hh, hsz⟩⟩
  have hcount := h.counted
  unfold Counted at hcount ⊢
  rw [hp, if_neg (by decide)] at hcount
  exact Nat.succ_le_succ hcount

/-- A reply to a request of one window, as a step. -/
theorem step_reply (mem : BufferMem) (hrun : s.stopped = false) (hl : s.windows = l₁ ++ win :: l₂)
    (hr : Answers event win) (h₁ : ∀ w ∈ l₁, ¬Answers event w) (h₂ : ∀ w ∈ l₂, ¬Answers event w)
    {r : Mm.Shm.State × ℕ}
    (hattach : attachKey s.shm deodhai s.next_shm_key win.resizeBytes mem.create mem.obtain = r)
    (hw : (if r.2 = 0 then { win with resizePending := false, resizeDeadline := 0 }
      else win.resized s.next_shm_key r.2) = w) :
    step s (.reply event mem) = { s with
      shm := if r.2 = 0 then r.1 else auSHMUnmap r.1 win.backBufferKey deodhai
      next_shm_key := deodhaiNextShmKey s.next_shm_key
      posted := s.posted ++ [reinit w event]
      windows := l₁ ++ w :: l₂ } := by
  have hreply := handleResizeReply_eq s mem hr
  rw [hattach] at hreply
  dsimp only at hreply
  rw [hw] at hreply
  unfold step
  dsimp only
  rw [if_neg (by simp [hrun]), hl, replyLoop_one h₁ h₂, hreply]

theorem step_reply_none (hn : ∀ w ∈ s.windows, ¬Answers event w) :
    step s (.reply event mem) = s := by
  unfold step
  dsimp only
  split_ifs
  · rfl
  · rw [replyLoop_none hn]

/-- What is left of the buffers after a reply to one window. -/
theorem keeps_reply (hi : WinInv s) (ho : Ok s (.reply event mem)) (hm : win ∈ s.windows)
    (hr : Answers event win) {r : Mm.Shm.State × ℕ}
    (hattach : attachKey s.shm deodhai s.next_shm_key win.resizeBytes mem.create mem.obtain = r) :
    Keeps (fun key => r.2 ≠ 0 ∧ key = win.backBufferKey) s.shm
      (if r.2 = 0 then r.1 else auSHMUnmap r.1 win.backBufferKey deodhai) := by
  have ha : AttachOk s.shm deodhai s.next_shm_key win.resizeBytes mem.create mem.obtain :=
    (ho win hm hr).attach
  have hkeep := keeps_attach hi.kernel ha
  have hk := (hi.kernel.attach ha).1
  rw [hattach] at hkeep hk
  split_ifs with h0
  · exact hkeep.mono fun key hg => hg.elim
  · apply (hkeep.trans (keeps_unmap hk win.backBufferKey).1).mono
    intro key hg
    rcases hg with hg | hg
    · exact hg.elim
    · exact ⟨h0, hg⟩

/-- A window is as good after the reply as it was before. -/
theorem Good.reply (hi : WinInv s) (ho : Ok s (.reply event mem))
    (hf : Fresh s (.reply event mem)) (hm : win ∈ s.windows) (hr : Answers event win)
    (hg : Good s.shm win) {r : Mm.Shm.State × ℕ}
    (hattach : attachKey s.shm deodhai s.next_shm_key win.resizeBytes mem.create mem.obtain = r)
    (hw : (if r.2 = 0 then { win with resizePending := false, resizeDeadline := 0 }
      else win.resized s.next_shm_key r.2) = w) :
    Good (if r.2 = 0 then r.1 else auSHMUnmap r.1 win.backBufferKey deodhai) w := by
  have ha : AttachOk s.shm deodhai s.next_shm_key win.resizeBytes mem.create mem.obtain :=
    (ho win hm hr).attach
  have hkeep := keeps_reply hi ho hm hr hattach
  obtain ⟨hk, hheld⟩ := hi.kernel.attach ha
  rw [hattach] at hk hheld
  have hcount := hg.counted
  unfold Counted at hcount
  rw [hr.1, if_pos rfl] at hcount
  by_cases h0 : r.2 = 0
  · rw [if_pos h0] at hw
    have hgood := hg.keep hkeep (fun h => h.1 h0)
    rw [← hw]
    exact ⟨hgood.sized, Nat.le_of_succ_le hcount, fun hp => by cases hp⟩
  · rw [if_neg h0] at hw ⊢
    obtain ⟨k, hh, hframes⟩ := hheld h0
    have hne : s.next_shm_key ≠ win.backBufferKey := by
      intro he
      apply (ho win hm hr).free win hm
      rw [he]
      exact List.mem_cons_self
    obtain ⟨hh', hframes'⟩ := (keeps_unmap hk win.backBufferKey).1 k _ _ hne hh
    rw [← hw]
    refine ⟨⟨k, hh', ?_⟩, hcount, fun hp => by cases hp⟩
    rw [hframes', hframes (hf win hm hr), resizeBytes_eq (hg.valid hr.1).2.2]
    rfl

/-! ## Every step -/

/-- A window that is not ended is there after the step, and every window after it is as good as one
before it, or good by what the step does. -/
structure Changes (s : State) (a : Act) : Prop where
  kept : ∀ w ∈ s.windows, ¬Ends w.backBufferKey s a → ∃ w' ∈ (step s a).windows, Continues w w'
  good : ∀ w' ∈ (step s a).windows,
    (∃ w ∈ s.windows, ¬Ends w.backBufferKey s a ∧ ∀ shm, Good shm w → Good shm w') ∨
    (Fresh s a → (∀ w ∈ s.windows, Good s.shm w) → Good (step s a).shm w')

theorem changes_same (hs : (step s a).windows = s.windows) (hn : ∀ key, ¬Ends key s a) :
    Changes s a where
  kept w hw _ := by
    rw [hs]
    exact ⟨w, hw, .refl w⟩
  good w hw := by
    rw [hs] at hw
    exact .inl ⟨w, hw, hn _, fun _ hg => hg⟩

/-- The segments that a step may take are those of a window that it ends. -/
theorem step_keeps (hi : WinInv s) (ho : Ok s a) :
    Keeps (fun key => ∃ w ∈ s.windows, key ∈ w.keys ∧ Ends w.backBufferKey s a) s.shm
      (step s a).shm := by
  have hsame : ∀ gone : ℕ → Prop, Keeps gone s.shm s.shm := fun gone =>
    (keeps_refl s.shm).mono fun key hg => hg.elim
  cases a with
  | client op => exact (keeps_client hi.kernel ho.1 ho.2).mono fun key hg => hg.elim
  | create x y w h flags ownerId mem memInfo =>
    unfold step
    dsimp only
    split_ifs
    · exact hsame _
    by_cases hbad : w ≤ 0 ∨ h ≤ 0 ∨ w * h > UINT32_MAX / 4
    · have hnone : createWindow s x y w h flags ownerId mem memInfo = (s, none) := if_pos hbad
      rw [hnone]
      exact hsame _
    · obtain ⟨buffer, shared, shm, he, -, -, hkeep, -⟩ :=
        createWindow_spec hi ho (by omega) (by omega) (by omega)
      rw [he]
      exact hkeep.mono fun key hg => hg.elim
  | beginResize i x y width height =>
    unfold step
    dsimp only
    repeat' split
    all_goals exact hsame _
  | reply event mem =>
    rcases hi.reply_cases event with hn | ⟨l₁, win, l₂, hl, hr, h₁, h₂⟩
    · rw [step_reply_none hn]
      exact hsame _
    have hm : win ∈ s.windows := by
      rw [hl]
      exact mem_middle.mpr (.inl rfl)
    cases hrun : s.stopped with
    | true =>
      have hstep : step s (.reply event mem) = s := if_pos hrun
      rw [hstep]
      exact hsame _
    | false =>
      rw [step_reply mem hrun hl hr h₁ h₂ rfl rfl]
      apply (keeps_reply hi ho hm hr rfl).mono
      intro key hg
      refine ⟨win, hm, ?_, hrun, win, hm, rfl, hr⟩
      rw [hg.2]
      exact List.mem_cons_self
  | poll now =>
    unfold step
    dsimp only
    split_ifs <;> exact hsame _
  | close i =>
    unfold step
    dsimp only
    split_ifs with hrun
    · exact hsame _
    split
    · exact hsame _
    next win hwin =>
      obtain ⟨hkeep, hk⟩ := keeps_unmap hi.kernel win.shWinKey
      apply (hkeep.trans (keeps_unmap hk win.backBufferKey).1).mono
      intro key hg
      refine ⟨win, List.mem_of_getElem? hwin, ?_, Bool.eq_false_of_not_eq_true hrun, win, hwin, rfl⟩
      simp only [Window.keys, List.mem_cons, List.not_mem_nil, or_false]
      exact hg.symm

theorem WinInv.eq_of_key (hi : WinInv s) (hw : w ∈ s.windows) (hv : v ∈ s.windows)
    (hkw : key ∈ w.keys) (hkv : key ∈ v.keys) : w = v := by
  obtain ⟨l₁, l₂, hl⟩ := List.append_of_mem hw
  have hkeys := hi.keys
  rw [hl, nodup_middle] at hkeys
  rw [hl, mem_middle] at hv
  rcases hv with rfl | hv
  · rfl
  · exact absurd hkw (hkeys.2.1 v hv key hkv)

theorem key_mem (w : Window) : w.backBufferKey ∈ w.keys := List.mem_cons_self

/-- A window that is not ended keeps its buffer. -/
theorem not_gone (hi : WinInv s) (hw : w ∈ s.windows) (hn : ¬Ends w.backBufferKey s a) :
    ¬∃ v ∈ s.windows, w.backBufferKey ∈ v.keys ∧ Ends v.backBufferKey s a := by
  rintro ⟨v, hv, hkey, hend⟩
  rw [hi.eq_of_key hw hv (key_mem w) hkey] at hn
  exact hn hend

theorem create_changes {x y w h : ℤ} {flags : UInt16} {ownerId : ℕ} {memInfo : BufferMem}
    (hi : WinInv s) (ho : Ok s (.create x y w h flags ownerId mem memInfo)) :
    Changes s (.create x y w h flags ownerId mem memInfo) := by
  cases hrun : s.stopped with
  | true => exact changes_same (congrArg State.windows (if_pos hrun)) fun _ => not_false
  | false =>
    by_cases hbad : w ≤ 0 ∨ h ≤ 0 ∨ w * h > UINT32_MAX / 4
    · have hnone : createWindow s x y w h flags ownerId mem memInfo = (s, none) := if_pos hbad
      refine changes_same ?_ fun _ => not_false
      unfold step
      dsimp only
      rw [if_neg (by simp [hrun]), hnone]
    have hw : 0 < w := by omega
    have hh : 0 < h := by omega
    have hsz : w * h ≤ UINT32_MAX / 4 := by omega
    obtain ⟨buffer, shared, shm, he, -, -, -, -, hframes⟩ := createWindow_spec hi ho hw hh hsz
    have hmade := (ho hw hh hsz).1.2
    constructor
    all_goals
      unfold step
      dsimp only
      rw [if_neg (by simp [hrun]), he]
      dsimp only
    · intro v hv _
      exact ⟨v, List.mem_append_left _ hv, .refl v⟩
    · intro v hv
      rcases List.mem_append.mp hv with hv | hv
      · exact .inl ⟨v, hv, not_false, fun _ hg => hg⟩
      right
      intro hf _
      obtain ⟨k, hheld, hnum⟩ := hframes (hf hw hh hsz)
      rw [List.mem_singleton.mp hv]
      exact ⟨⟨k, hheld, hnum.trans (windowBytes_frames hsz hmade.size.1)⟩, Nat.le_refl 0,
        fun hp => by cases hp⟩

theorem begin_changes {i : ℕ} {x y width height : ℤ} :
    Changes s (.beginResize i x y width height) := by
  have hn : ∀ key, ¬Ends key s (.beginResize i x y width height) := fun _ => not_false
  by_cases hwin : ∃ win w event, s.stopped = false ∧ s.windows[i]? = some win ∧
      deodhaiBeginResize s.now win x y width height = some (w, event)
  · obtain ⟨win, w, event, hrun, hwin, hb⟩ := hwin
    obtain ⟨l₁, l₂, hl, hset, -⟩ := exists_split hwin
    obtain ⟨rfl, hp, hw, hh, hsz, -⟩ := begin_cases hb
    have he : (step s (.beginResize i x y width height)).windows =
        l₁ ++ win.asked s.now x y width height :: l₂ := by
      unfold step
      dsimp only
      rw [if_neg (by simp [hrun]), hwin]
      dsimp only
      rw [hb]
      exact hset _
    constructor
    · intro v hv _
      rw [hl, mem_middle] at hv
      rw [he]
      rcases hv with rfl | hv
      · exact ⟨_, mem_middle.mpr (.inl rfl), asked_continues hp⟩
      · exact ⟨v, mem_middle.mpr (.inr hv), .refl v⟩
    · intro v hv
      rw [he, mem_middle] at hv
      left
      rcases hv with rfl | hv
      · refine ⟨win, ?_, not_false, fun shm hg => hg.asked hp hw hh hsz⟩
        rw [hl]
        exact mem_middle.mpr (.inl rfl)
      · refine ⟨v, ?_, not_false, fun _ hg => hg⟩
        rw [hl]
        exact mem_middle.mpr (.inr hv)
  · apply changes_same _ hn
    unfold step
    dsimp only
    split_ifs with hrun
    · rfl
    split
    · rfl
    next win hw =>
      split
      · rfl
      next w event hb =>
        exact absurd ⟨win, w, event, Bool.eq_false_of_not_eq_true hrun, hw, hb⟩ hwin

theorem reply_changes (hi : WinInv s) (ho : Ok s (.reply event mem)) :
    Changes s (.reply event mem) := by
  rcases hi.reply_cases event with hnone | ⟨l₁, win, l₂, hl, hr, h₁, h₂⟩
  · apply changes_same (congrArg State.windows (step_reply_none hnone))
    rintro key ⟨-, w, hw, -, hr⟩
    exact hnone w hw hr
  cases hrun : s.stopped with
  | true =>
    have hsame : step s (.reply event mem) = s := if_pos hrun
    apply changes_same (congrArg State.windows hsame)
    rintro key ⟨hgo, -⟩
    rw [hrun] at hgo
    cases hgo
  | false =>
    have hm : win ∈ s.windows := by
      rw [hl]
      exact mem_middle.mpr (.inl rfl)
    have hstep := step_reply mem hrun hl hr h₁ h₂ rfl rfl
    constructor
    · intro v hv hn
      have hv' := hv
      rw [hl, mem_middle] at hv'
      rcases hv' with rfl | hv'
      · exact absurd ⟨hrun, v, hv, rfl, hr⟩ hn
      · rw [hstep]
        exact ⟨v, mem_middle.mpr (.inr hv'), .refl v⟩
    · intro v hv
      rw [hstep] at hv
      rcases mem_middle.mp hv with rfl | hv
      · right
        intro hf hg
        rw [hstep]
        exact (hg win hm).reply hi ho hf hm hr rfl rfl
      · left
        have hv' : v ∈ s.windows := by
          rw [hl]
          exact mem_middle.mpr (.inr hv)
        refine ⟨v, hv', ?_, fun _ hg => hg⟩
        rintro ⟨-, u, hu, hkey, hru⟩
        have huv : u = v := hi.eq_of_key hu hv' (key_mem u) (by rw [hkey]; exact key_mem v)
        rw [huv] at hru
        rcases List.mem_append.mp hv with hv | hv
        · exact h₁ v hv hru
        · exact h₂ v hv hru

theorem close_changes (hi : WinInv s) {i : ℕ} : Changes s (.close i) := by
  by_cases hwin : s.stopped = false ∧ ∃ win, s.windows[i]? = some win
  · obtain ⟨hrun, win, hwin⟩ := hwin
    obtain ⟨l₁, l₂, hl, -, herase⟩ := exists_split hwin
    have he : (step s (.close i)).windows = l₁ ++ l₂ := by
      unfold step
      dsimp only
      rw [if_neg (by simp [hrun]), hwin]
      exact herase
    constructor
    · intro v hv hn
      rw [hl, mem_middle] at hv
      rcases hv with rfl | hv
      · exact absurd ⟨hrun, v, hwin, rfl⟩ hn
      · rw [he]
        exact ⟨v, hv, .refl v⟩
    · intro v hv
      rw [he] at hv
      left
      refine ⟨v, ?_, ?_, fun _ hg => hg⟩
      · rw [hl]
        exact mem_middle.mpr (.inr hv)
      · rintro ⟨-, u, hu, hkey⟩
        obtain rfl : win = u := Option.some.inj (hwin.symm.trans hu)
        have hkeys := hi.keys
        rw [hl, nodup_middle] at hkeys
        apply hkeys.2.1 v hv _ (key_mem v)
        rw [← hkey]
        exact key_mem win
  · have hsame : step s (.close i) = s := by
      unfold step
      dsimp only
      split_ifs with hrun
      · rfl
      split
      · rfl
      next win hw =>
        exact absurd ⟨Bool.eq_false_of_not_eq_true hrun, win, hw⟩ hwin
    apply changes_same (congrArg State.windows hsame)
    rintro key ⟨hrun, w, hw, -⟩
    exact hwin ⟨hrun, w, hw⟩

theorem poll_changes {now : ℕ} : Changes s (.poll now) := by
  cases hrun : s.stopped with
  | true => exact changes_same (congrArg State.windows (if_pos hrun)) fun _ => not_false
  | false =>
    have he : (step s (.poll now)).windows = s.windows.map (deodhaiPollResize now) := by
      unfold step
      dsimp only
      rw [if_neg (by simp [hrun])]
    constructor
    · intro v hv _
      rw [he]
      exact ⟨_, List.mem_map_of_mem hv, poll_continues now v⟩
    · intro v hv
      rw [he] at hv
      obtain ⟨u, hu, rfl⟩ := List.mem_map.mp hv
      exact .inl ⟨u, hu, not_false, fun _ hg => hg.poll now⟩

theorem step_changes (hi : WinInv s) (ho : Ok s a) : Changes s a := by
  cases a with
  | client op => exact changes_same rfl fun _ => not_false
  | create x y w h flags ownerId mem memInfo => exact create_changes hi ho
  | beginResize i x y width height => exact begin_changes
  | reply event mem => exact reply_changes hi ho
  | poll now => exact poll_changes
  | close i => exact close_changes hi

theorem step_stays (hi : WinInv s) (ho : Ok s a) (hw : w ∈ s.windows)
    (hn : ¬Ends w.backBufferKey s a) : Stays s (step s a) w :=
  ⟨(step_changes hi ho).kept w hw hn,
    fun k addr hh => (step_keeps hi ho k _ addr (not_gone hi hw hn) hh).1⟩

/-- The windows are in order, and every one is as its client takes it to be. -/
structure ResizeInv (s : State) : Prop where
  win : WinInv s
  good : ∀ w ∈ s.windows, Good s.shm w

theorem resizeInv_init : ResizeInv {} := ⟨winInv_init, fun _ hw => absurd hw List.not_mem_nil⟩

theorem ResizeInv.step (hi : ResizeInv s) (ho : Ok s a ∧ Fresh s a) :
    ResizeInv (Windows.step s a) := by
  refine ⟨hi.win.step ho.1, ?_⟩
  intro w' hw'
  rcases (step_changes hi.win ho.1).good w' hw' with ⟨w, hw, hn, hg⟩ | hg
  · exact hg _ ((hi.good w hw).keep (step_keeps hi.win ho.1) (not_gone hi.win hw hn))
  · exact hg ho.2 hi.good

/-! ## Runs -/

theorem Stays.trans {u : State} (h : Stays s t w)
    (h' : ∀ v ∈ t.windows, v.backBufferKey = w.backBufferKey → Stays t u v) : Stays s u w := by
  obtain ⟨⟨v, hv, hc⟩, hh⟩ := h
  obtain ⟨⟨v', hv', hc'⟩, hh'⟩ := h' v hv hc.sameKey
  rw [hc.sameKey] at hh'
  exact ⟨⟨v', hv', hc.trans hc'⟩, fun k addr hheld => hh' k addr (hh k addr hheld)⟩

/-- Until it is ended, a window keeps its buffer and its request. -/
theorem run_stays (hi : ResizeInv s) {as : List Act}
    (h : Respects (fun s a => Ok s a ∧ Fresh s a) step s as) (hw : w ∈ s.windows)
    (hn : Respects (fun s a => ¬Ends w.backBufferKey s a) step s as) :
    Stays s (run step s as) w := by
  induction as generalizing s w with
  | nil => exact ⟨⟨w, hw, .refl w⟩, fun _ _ hh => hh⟩
  | cons a as ih =>
    apply (step_stays hi.win h.1.1 hw hn.1).trans
    intro v hv hkey
    apply ih (hi.step h.1) h.2 hv
    rw [hkey]
    exact hn.2

theorem completed (hi : ResizeInv s) (hw : w ∈ s.windows) (hrun : s.stopped = false)
    (hr : Answers event w) (ho : Ok s (.reply event mem)) :
    ∃ w' ∈ (step s (.reply event mem)).windows,
      Completed s (step s (.reply event mem)) w w' event mem := by
  rcases hi.win.reply_cases event with hnone | ⟨l₁, win, l₂, hl, hwin, h₁, h₂⟩
  · exact absurd hr (hnone w hw)
  obtain rfl : w = win := by
    rw [hl, mem_middle] at hw
    rcases hw with rfl | hw
    · rfl
    rcases List.mem_append.mp hw with hw | hw
    · exact absurd hr (h₁ w hw)
    · exact absurd hr (h₂ w hw)
  have hstep := step_reply mem hrun hl hr h₁ h₂ rfl rfl
  rw [hstep]
  refine ⟨_, mem_middle.mpr (.inl rfl), ?_, ?_, rfl, ?_⟩
  · split_ifs <;> rfl
  · split_ifs <;> exact ⟨rfl, rfl, rfl⟩
  · split_ifs with h0
    · right
      refine ⟨?_, rfl, rfl, rfl⟩
      intro hall
      obtain ⟨hpw, hph, hsz⟩ := (hi.good w hw).valid hr.1
      exact hi.win.kernel.attach_ne_zero (ho w hw hr).attach (made_of_all hpw hph hsz hall)
        hi.win.alive h0
    · exact .inl ⟨rfl, rfl⟩

theorem ResizeInv.resizes (hi : ResizeInv s) (hw : w ∈ s.windows) : Resizes s w where
  refused := by
    intro hp i x y width height hwin
    have hb : deodhaiBeginResize s.now w x y width height = none := if_pos (.inl hp)
    unfold Windows.step
    dsimp only
    split_ifs
    · rfl
    · rw [hwin]
      dsimp only
      rw [hb]
  accepted := by
    intro x y width height w' event hb
    obtain ⟨he, -, hpw, hph, -, hkey⟩ := begin_cases hb
    exact ⟨he, hpw, hph, hkey⟩
  completed := fun hrun _ _ hr ho => completed hi hw hrun hr ho

/-- In every run whose new back buffers have keys of their own: the published size is that of the
buffer, buffers are replaced once for a request at most, the old buffer stays until the client has
replied, and a reply completes the request that was taken on. -/
theorem exec_resize (as bs : List Act)
    (h : Respects (fun s a => Ok s a ∧ Fresh s a) step {} (as ++ bs)) :
    ∀ w ∈ (run step {} as).windows, Sized (run step {} as).shm w ∧ Counted w ∧
      Resizes (run step {} as) w ∧
      (Respects (fun s a => ¬Ends w.backBufferKey s a) step (run step {} as) bs →
        Stays (run step {} as) (run step {} (as ++ bs)) w) := by
  obtain ⟨has, hbs⟩ := respects_append.mp h
  have hi : ResizeInv (run step {} as) :=
    has.invariant (fun _ _ hi ho => hi.step ho) resizeInv_init
  intro w hw
  refine ⟨(hi.good w hw).sized, (hi.good w hw).counted, hi.resizes hw, ?_⟩
  intro hn
  rw [run_append]
  exact run_stays hi hbs hw hn

theorem exec_resize_late :
    (run step {} [openWindow, .beginResize 0 5 5 20 20]).windows.length = 1 ∧
    ∀ w ∈ (run step {} [openWindow, .beginResize 0 5 5 20 20]).windows,
      Sized (run step {} [openWindow, .beginResize 0 5 5 20 20]).shm w ∧ Counted w ∧
        Resizes (run step {} [openWindow, .beginResize 0 5 5 20 20]) w ∧
        (Respects (fun s a => ¬Ends w.backBufferKey s a) step
            (run step {} [openWindow, .beginResize 0 5 5 20 20]) [.poll 2000, .close 1] →
          Stays (run step {} [openWindow, .beginResize 0 5 5 20 20])
            (run step {} ([openWindow, .beginResize 0 5 5 20 20] ++ [.poll 2000, .close 1])) w) :=
  ⟨by decide +kernel, exec_resize _ _ (by decide +kernel)⟩

/-- What is asked for before the reply to a request is not what is completed. -/
theorem not_exec_resize : ¬∀ (as : List Act) (x y width height : ℤ) (now : ℕ) (event : PostEvent),
    Respects (fun s a => Ok s a ∧ Fresh s a) step {}
      (as ++ [.beginResize 0 x y width height, .poll now, .reply event allMem]) →
    0 < width → 0 < height → width * height ≤ UINT32_MAX / 4 →
    ∀ w ∈ (run step {} (as ++ [.beginResize 0 x y width height, .poll now])).windows[0]?,
      Answers event w → ∀ w' ∈ (run step {} (as ++ [.beginResize 0 x y width height, .poll now,
        .reply event allMem])).windows[0]?, w'.info = ⟨x, y, width, height⟩ := by
  intro h
  have hrun := h [openWindow, .beginResize 0 5 5 20 20] 5 5 30 30 2000 (destroyed 1000)
    (by decide +kernel) (by decide) (by decide) (by decide)
  revert hrun
  decide +kernel

end Xeneva.Deodhai.Windows
