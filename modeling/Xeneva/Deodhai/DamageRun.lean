import Xeneva.Deodhai.Damage

/-!
# Nothing that is owed is lost

What is owed is in the list, or in the compositor's copy of it, until it is composed; and a list
that is not empty has `dirty` set, or a step ahead that sets it. A quiet frame therefore composes
all of it.
-/

namespace Xeneva.Deodhai
open Base

variable {s s' : Win} {f : Frame} {a : Act}

/-- What the compositor has read is still true. -/
def Fresh (s : Win) : Prop :=
  match s.comp with
  | .takeLoad f => f.kind = .normal
  | .takeCopy f raw => f.kind = .normal ∧ raw ≤ s.rectCount
  | .takeCas f raw out => f.kind = .normal ∧ raw ≤ s.rectCount ∧ out = copyDamage s raw
  | .compose f damage => f.kind = .normal ∧ s.rectCount = 0 ∧ damage.length ≤ WIN_MAX_DAMAGE
  | .walk f k => f.kind = .onTop ∧ k ≤ s.rectCount
  | _ => True

/-- The rectangle is not empty. -/
def Rect.Area (r : Rect) : Prop := 0 < r.w ∧ 0 < r.h

/-- What the client has read is still true. -/
def Current (s : Win) : Client → Prop
  | .copied r _ _ => r.Area
  | .loaded r entire i => r.Area ∧ s.rectCount ≤ i ∧ (entire = true ∨ i < 256)
  | .written r _ i => r.Area ∧ s.rectCount ≤ i ∧ i < 256 ∧ s.rect i = r
  | _ => True

/-- The client is about to set `dirty`. -/
def Client.marks : Client → Bool
  | .listed _ dirty | .flagged dirty => dirty
  | _ => false

/-- The compositor is about to look whether `dirty` must be set again. -/
def Comp.acks : Comp → Bool
  | .clearDirty f => f.kind = .normal
  | .ackDirty _ | .ackCount _ | .ackSet _ => true
  | _ => false

structure Inv (s : Win) : Prop where
  count : s.rectCount ≤ 256
  current : Current s s.client
  fresh : Fresh s
  owed : ∀ p ∈ s.owed, p.2 ≤ s.version ∧ p.1.Area ∧ Held s p.1
  dirty : 0 < s.rectCount → s.dirty = true ∨ s.client.marks = true ∨ s.comp.acks = true
  late : s.comp.dropsDirty = true → 0 < s.rectCount → s.client.marks = true
  entire : ∀ v, s.owedEntire = some v →
    v ≤ s.version ∧ s.updateEntire = true ∧ s.comp.dropsEntire = false

theorem inv_init (width height : ℤ) : Inv { width := width, height := height } where
  count := Nat.zero_le _
  current := trivial
  fresh := trivial
  owed p hp := by simp at hp
  dirty h := absurd h (Nat.lt_irrefl 0)
  late h := nomatch h
  entire v h := by simp at h

theorem clampUpdate_area {width height x y w h : ℤ} {r : Rect}
    (hr : clampUpdate width height x y w h = some r) : r.Area := by
  unfold clampUpdate at hr
  dsimp only at hr
  rw [Option.ite_none_left_eq_some] at hr
  obtain ⟨hn, hr⟩ := hr
  obtain rfl := Option.some.inj hr
  rw [not_or, Int.not_le, Int.not_le] at hn
  exact hn

/-! ## The client's steps -/

theorem Inv.update (h : Inv s) (x y w height : ℤ) (entire dirty : Bool) :
    Inv (chWindowUpdate s x y w height entire dirty) := by
  unfold chWindowUpdate
  split
  next r hc hr =>
    constructor
    · exact h.count
    · exact clampUpdate_area hr
    · exact h.fresh
    · intro p hp
      obtain ⟨h1, h2, h3⟩ := h.owed p hp
      exact ⟨Nat.le_succ_of_le h1, h2, h3⟩
    · intro hpos
      rcases h.dirty hpos with hd | hd | hd
      · exact .inl hd
      · rw [hc] at hd
        exact nomatch hd
      · exact .inr (.inr hd)
    · intro hl hpos
      have hm := h.late hl hpos
      rw [hc] at hm
      exact nomatch hm
    · intro v hv
      obtain ⟨h1, h2⟩ := h.entire v hv
      exact ⟨Nat.le_succ_of_le h1, h2⟩
  next => exact h

/-- What the compositor holds does not change when only the client's side does. -/
theorem Held.mono {r : Rect} (h : Held s r) (hc : s'.comp = s.comp)
    (hl : ∀ k, Listed s k r → Listed s' k r) : Held s' r := by
  unfold Held at h ⊢
  rw [hc]
  split at h
  · exact h
  · exact hl _ h
  · exact h
  · exact hl _ h

/-- The client writes its rectangle behind the list. -/
theorem listed_write {i k : ℕ} {r r' : Rect} (hi : s.rectCount ≤ i) (c : Client)
    (h : Listed s k r) : Listed { s with rect := Function.update s.rect i r', client := c } k r := by
  obtain ⟨j, hk, hj, hr⟩ := h
  refine ⟨j, hk, hj, ?_⟩
  change Function.update s.rect i r' j = r
  rw [Function.update_of_ne (by omega), hr]

theorem copyDamage_write {i raw : ℕ} {r' : Rect} (hraw : raw ≤ i) (c : Client) :
    copyDamage { s with rect := Function.update s.rect i r', client := c } raw =
      copyDamage s raw := by
  unfold copyDamage
  apply List.map_congr_left
  intro j hj
  have hj' : j < raw := Nat.lt_of_lt_of_le (List.mem_range.mp hj) (Nat.min_le_left _ _)
  exact Function.update_of_ne (by omega) _ _

/-- The client counts its rectangle. -/
theorem listed_count {i k : ℕ} {r : Rect} (hi : s.rectCount ≤ i) {o : List (Rect × ℕ)} (c : Client)
    (h : Listed s k r) : Listed { s with rectCount := i + 1, owed := o, client := c } k r := by
  obtain ⟨j, hk, hj, hr⟩ := h
  refine ⟨j, hk, ?_, hr⟩
  change j < i + 1
  omega

theorem Inv.written (h : Inv s) {r : Rect} {entire : Bool} {i : ℕ}
    (hc : s.client = .written r entire i) (hok : s.comp.dropsCount = false) :
    Inv { s with
      rectCount := i + 1, owed := (r, s.version) :: s.owed, client := .listed entire true } := by
  obtain ⟨hr, hi, hi', hri⟩ : Current s (.written r entire i) := hc ▸ h.current
  constructor
  · exact hi'
  · trivial
  · have hf := h.fresh
    unfold Fresh at hf ⊢
    dsimp only
    cases hcomp : s.comp with
    | takeLoad f =>
      rw [hcomp] at hf
      exact hf
    | takeCopy f raw =>
      rw [hcomp] at hf
      exact ⟨hf.1, Nat.le_trans hf.2 (Nat.le_succ_of_le hi)⟩
    | takeCas f raw out =>
      rw [hcomp] at hf
      exact ⟨hf.1, Nat.le_trans hf.2.1 (Nat.le_succ_of_le hi), hf.2.2⟩
    | walk f k =>
      rw [hcomp] at hf
      exact ⟨hf.1, Nat.le_trans hf.2 (Nat.le_succ_of_le hi)⟩
    | compose f damage =>
      rw [hcomp] at hok
      exact nomatch hok
    | _ => trivial
  · intro p hp
    rcases List.mem_cons.mp hp with rfl | hp
    · refine ⟨Nat.le_refl _, hr, ?_⟩
      -- the new rectangle is the last of the list
      have hlast : ∀ k ≤ i, Listed { s with
          rectCount := i + 1, owed := (r, s.version) :: s.owed, client := .listed entire true }
          k r := fun k hk => ⟨i, hk, Nat.lt_succ_self i, hri⟩
      have hf := h.fresh
      unfold Held
      dsimp only
      cases hcomp : s.comp with
      | compose f damage =>
        rw [hcomp] at hok
        exact nomatch hok
      | clearCount f =>
        rw [hcomp] at hok
        exact nomatch hok
      | walk f k =>
        unfold Fresh at hf
        rw [hcomp] at hf
        exact hlast k (Nat.le_trans hf.2 hi)
      | _ => exact hlast 0 (Nat.zero_le i)
    · obtain ⟨h1, h2, h3⟩ := h.owed p hp
      exact ⟨h1, h2, h3.mono rfl fun k => listed_count hi _⟩
  · intro _
    exact .inr (.inl rfl)
  · intro _ _
    rfl
  · exact h.entire

/-- The client writes into the list. -/
theorem Inv.loaded (h : Inv s) {r : Rect} {entire : Bool} {i : ℕ}
    (hc : s.client = .loaded r entire i) (hi' : i < 256) :
    Inv { s with rect := Function.update s.rect i r, client := .written r entire i } := by
  obtain ⟨hr, hi, -⟩ : Current s (.loaded r entire i) := hc ▸ h.current
  constructor
  · exact h.count
  · exact ⟨hr, hi, hi', Function.update_self i r s.rect⟩
  · have hf := h.fresh
    unfold Fresh at hf ⊢
    dsimp only
    cases hcomp : s.comp with
    | takeCas f raw out =>
      rw [hcomp] at hf
      exact ⟨hf.1, hf.2.1, hf.2.2.trans (copyDamage_write (Nat.le_trans hf.2.1 hi)
        (.written r entire i)).symm⟩
    | _ =>
      rw [hcomp] at hf
      exact hf
  · intro p hp
    obtain ⟨h1, h2, h3⟩ := h.owed p hp
    exact ⟨h1, h2, h3.mono rfl fun k => listed_write hi _⟩
  · intro hpos
    rcases h.dirty hpos with hd | hd | hd
    · exact .inl hd
    · rw [hc] at hd
      exact nomatch hd
    · exact .inr (.inr hd)
  · intro hl hpos
    have hm := h.late hl hpos
    rw [hc] at hm
    exact nomatch hm
  · exact h.entire

/-- A step of the client that leaves the list alone. -/
theorem Inv.of_client (h : Inv s) {c : Client} {d e : Bool} {o : Option ℕ} (hcur : Current s c)
    (hd : 0 < s.rectCount → d = true ∨ c.marks = true ∨ s.comp.acks = true)
    (hl : s.comp.dropsDirty = true → 0 < s.rectCount → c.marks = true)
    (he : ∀ v, o = some v → v ≤ s.version ∧ e = true ∧ s.comp.dropsEntire = false) :
    Inv { s with dirty := d, updateEntire := e, owedEntire := o, client := c } where
  count := h.count
  current := by
    cases c <;> exact hcur
  fresh := h.fresh
  owed p hp := h.owed p hp
  dirty := hd
  late := hl
  entire := he

theorem Inv.client (h : Inv s) (hok : ClientOk s s.client) : Inv (clientStep s) := by
  unfold clientStep
  cases hc : s.client with
  | idle => exact h
  | copied r entire dirty =>
    rw [hc] at hok
    have hr : r.Area := (hc ▸ h.current : Current s (.copied r entire dirty))
    have hd : 0 < s.rectCount → s.dirty = true ∨ s.comp.acks = true := by
      intro hpos
      rcases h.dirty hpos with hd | hd | hd
      · exact .inl hd
      · rw [hc] at hd
        exact nomatch hd
      · exact .inr hd
    have hl : ∀ b : Bool, s.comp.dropsDirty = true → 0 < s.rectCount → b = true := by
      intro b hl hpos
      have hm := h.late hl hpos
      rw [hc] at hm
      exact nomatch hm
    cases dirty with
    | false =>
      exact h.of_client (c := .listed entire false) trivial (fun hpos => (hd hpos).imp_right .inr)
        (hl _) h.entire
    | true =>
      exact h.of_client (c := .loaded r entire s.rectCount) ⟨hr, Nat.le_refl _, hok⟩
        (fun hpos => (hd hpos).imp_right .inr) (hl _) h.entire
  | loaded r entire i =>
    have hi : entire = true ∨ i < 256 := (hc ▸ h.current : Current s (.loaded r entire i)).2.2
    dsimp only
    split
    next hi' => exact h.loaded hc hi'
    next hi' =>
      have he : entire = true := hi.resolve_right hi'
      rw [if_pos he]
      exact h.of_client (c := .listed entire true) trivial (fun _ => .inr (.inl rfl))
        (fun _ _ => rfl) h.entire
  | written r entire i =>
    rw [hc] at hok
    exact h.written hc hok
  | listed entire dirty =>
    rw [hc] at hok
    have hd : 0 < s.rectCount → s.dirty = true ∨ dirty = true ∨ s.comp.acks = true := by
      intro hpos
      have := h.dirty hpos
      rwa [hc] at this
    have hl : s.comp.dropsDirty = true → 0 < s.rectCount → dirty = true := by
      intro hl hpos
      have := h.late hl hpos
      rwa [hc] at this
    cases entire with
    | true =>
      apply h.of_client (c := .flagged dirty) trivial hd hl
      intro v hv
      obtain rfl := Option.some.inj hv
      exact ⟨Nat.le_refl _, rfl, hok⟩
    | false =>
      apply h.of_client (c := .flagged dirty) trivial hd hl
      intro v hv
      exact absurd (hv.symm.trans hok) (Option.some_ne_none v)
  | flagged dirty =>
    rw [hc] at hok
    cases dirty with
    | true =>
      apply h.of_client (c := .idle) trivial (fun _ => .inl rfl) _ h.entire
      intro hl hpos
      have := hok hl
      omega
    | false =>
      have hl : s.comp.dropsDirty = true → 0 < s.rectCount → false = true := by
        intro hl hpos
        have := h.late hl hpos
        rwa [hc] at this
      apply h.of_client (c := .idle) trivial _ hl h.entire
      intro hpos
      rcases h.dirty hpos with hd | hd | hd
      · exact .inl hd
      · rw [hc] at hd
        exact nomatch hd
      · exact .inr (.inr hd)

/-! ## The compositor's steps -/

/-- A step that only moves the compositor on. -/
theorem Inv.move (h : Inv s) (c : Comp) (hfresh : Fresh { s with comp := c })
    (hheld : ∀ p ∈ s.owed, Held s p.1 → Held { s with comp := c } p.1)
    (hacks : s.comp.acks = true → c.acks = true ∨ s.rectCount = 0 ∨ s.dirty = true)
    (hlate : c.dropsDirty = false) (hdrop : c.dropsEntire = true → s.comp.dropsEntire = true) :
    Inv { s with comp := c } where
  count := h.count
  current := h.current
  fresh := hfresh
  owed p hp := ⟨(h.owed p hp).1, (h.owed p hp).2.1, hheld p hp (h.owed p hp).2.2⟩
  dirty hpos := by
    rcases h.dirty hpos with hd | hd | hd
    · exact .inl hd
    · exact .inr (.inl hd)
    · rcases hacks hd with ha | ha | ha
      · exact .inr (.inr ha)
      · exact absurd hpos (by dsimp only; omega)
      · exact .inl ha
  late hl := absurd (hlate.symm.trans hl) Bool.false_ne_true
  entire v hv := by
    obtain ⟨h1, h2, h3⟩ := h.entire v hv
    refine ⟨h1, h2, ?_⟩
    by_contra hc
    rw [hdrop (by simpa using hc)] at h3
    exact nomatch h3

/-- The phases in which the list is as the client sees it. -/
def Comp.plain : Comp → Bool
  | .takeLoad _ | .takeCopy _ _ | .takeCas _ _ _ | .compose _ _ | .walk _ _ | .clearCount _
  | .clearDirty _ => false
  | _ => true

theorem held_plain {c : Comp} (hc : c.plain = true) (hs : s.comp = c) (r : Rect) :
    Held s r ↔ Listed s 0 r := by
  unfold Held
  rw [hs]
  cases c <;> first | exact Iff.rfl | exact nomatch hc

theorem fresh_plain (hc : s.comp.plain = true) : Fresh s := by
  unfold Fresh
  cases h : s.comp <;> first | trivial | (rw [h] at hc; exact nomatch hc)

theorem dropsDirty_plain {c : Comp} (hc : c.plain = true) : c.dropsDirty = false := by
  cases c <;> first | rfl | exact nomatch hc

/-- From one plain phase to another. -/
theorem Inv.goto (h : Inv s) {c k : Comp} (hs : s.comp = c) (hc : c.plain = true)
    (hk : k.plain = true)
    (hacks : c.acks = true → k.acks = true ∨ s.rectCount = 0 ∨ s.dirty = true)
    (hdrop : k.dropsEntire = true → c.dropsEntire = true) : Inv { s with comp := k } := by
  apply h.move k (fresh_plain hk) _ (hs ▸ hacks) (dropsDirty_plain hk) (hs ▸ hdrop)
  intro p _ hp
  exact (held_plain hk rfl p.1).mpr ((held_plain hc hs p.1).mp hp)

theorem Inv.frame (h : Inv s) (f : Frame) : Inv (beginFrame f s) := by
  unfold beginFrame
  split
  next hc => exact h.goto hc rfl rfl (fun ha => nomatch ha) (fun hd => nomatch hd)
  next => exact h

/-- Composing a rectangle pays for it. -/
theorem composeRect_eq (s : Win) (r : Rect) :
    ∃ o, composeRect s r = { s with owed := o } ∧ ∀ p ∈ o, p ∈ s.owed ∧
      (r.Area → p.2 ≤ s.version → p.1 ≠ r) := by
  unfold composeRect
  split
  next hr =>
    refine ⟨s.owed, rfl, ?_⟩
    intro p hp
    refine ⟨hp, ?_⟩
    intro hA
    have h1 := hA.1
    have h2 := hA.2
    exact absurd hr (by omega)
  next hr =>
    refine ⟨_, rfl, ?_⟩
    intro p hp
    obtain ⟨hp, hp'⟩ := List.mem_filter.mp hp
    refine ⟨hp, ?_⟩
    intro _ hv
    rcases of_decide_eq_true hp' with hne | hlt
    · exact hne
    · omega

/-- Fewer rectangles are owed. -/
theorem Inv.paid (h : Inv s) {o : List (Rect × ℕ)} (ho : ∀ p ∈ o, p ∈ s.owed) :
    Inv { s with owed := o } where
  count := h.count
  current := h.current
  fresh := h.fresh
  owed p hp := h.owed p (ho p hp)
  dirty := h.dirty
  late := h.late
  entire := h.entire

theorem Inv.compose (h : Inv s) {r : Rect} {damage : List Rect}
    (hs : s.comp = .compose f (r :: damage)) :
    Inv { composeRect s r with comp := .compose f damage } := by
  obtain ⟨o, ho, hpaid⟩ := composeRect_eq s r
  rw [ho]
  have hfresh : f.kind = .normal ∧ s.rectCount = 0 ∧ (r :: damage).length ≤ WIN_MAX_DAMAGE := by
    have := h.fresh
    unfold Fresh at this
    rwa [hs] at this
  apply (h.paid fun p hp => (hpaid p hp).1).move (.compose f damage)
  · exact ⟨hfresh.1, hfresh.2.1, Nat.le_of_succ_le hfresh.2.2⟩
  · intro p hp hheld
    obtain ⟨hp, hne⟩ := hpaid p hp
    obtain ⟨hv, hA, -⟩ := h.owed p hp
    have hmem : p.1 ∈ r :: damage := by
      unfold Held at hheld
      dsimp only at hheld
      rwa [hs] at hheld
    rcases List.mem_cons.mp hmem with he | hm
    · exact absurd he (hne (he ▸ hA) hv)
    · exact hm
  · intro _
    exact .inr (.inl hfresh.2.1)
  · rfl
  · intro hd
    exact nomatch hd

theorem Inv.walk (h : Inv s) {k : ℕ} (hs : s.comp = .walk f k) (hk : k < s.rectCount) :
    Inv { composeRect s (s.rect k) with comp := .walk f (k + 1) } := by
  obtain ⟨o, ho, hpaid⟩ := composeRect_eq s (s.rect k)
  rw [ho]
  have hfresh : f.kind = .onTop ∧ k ≤ s.rectCount := by
    have := h.fresh
    unfold Fresh at this
    rwa [hs] at this
  apply (h.paid fun p hp => (hpaid p hp).1).move (.walk f (k + 1))
  · exact ⟨hfresh.1, hk⟩
  · intro p hp hheld
    obtain ⟨hp, hne⟩ := hpaid p hp
    obtain ⟨hv, hA, -⟩ := h.owed p hp
    have hmem : Listed s k p.1 := by
      unfold Held at hheld
      dsimp only at hheld
      rw [hs] at hheld
      exact hheld
    obtain ⟨j, hj, hj', hr⟩ := hmem
    refine ⟨j, ?_, hj', hr⟩
    -- what is at `k` is paid for
    by_contra hlt
    have hjk : j = k := by omega
    rw [hjk] at hr
    exact hne (hr ▸ hA) hv hr.symm
  · intro ha
    dsimp only at ha
    rw [hs] at ha
    exact nomatch ha
  · rfl
  · intro hd
    exact nomatch hd

/-- The list is cleared under the client. -/
theorem Current.cleared {c : Client} (h : Current s c) (k : Comp) :
    Current { s with rectCount := 0, comp := k } c := by
  cases c with
  | loaded r entire i => exact ⟨h.1, Nat.zero_le _, h.2.2⟩
  | written r entire i => exact ⟨h.1, Nat.zero_le _, h.2.2⟩
  | _ => exact h

/-- The list is taken: the copy holds what is owed. -/
theorem Inv.taken (h : Inv s) {raw : ℕ} {out : List Rect} (hs : s.comp = .takeCas f raw out)
    (hraw : s.rectCount = raw) : Inv { s with rectCount := 0, comp := .compose f out } := by
  have hfresh : f.kind = .normal ∧ raw ≤ s.rectCount ∧ out = copyDamage s raw := by
    have := h.fresh
    unfold Fresh at this
    rwa [hs] at this
  constructor
  · exact Nat.zero_le _
  · exact h.current.cleared _
  · refine ⟨hfresh.1, rfl, ?_⟩
    rw [hfresh.2.2, copyDamage, List.length_map, List.length_range]
    exact Nat.min_le_right _ _
  · intro p hp
    obtain ⟨hv, hA, hheld⟩ := h.owed p hp
    refine ⟨hv, hA, ?_⟩
    have hl : Listed s 0 p.1 := by
      unfold Held at hheld
      rwa [hs] at hheld
    obtain ⟨j, -, hj, hr⟩ := hl
    have hcount := h.count
    change p.1 ∈ out
    rw [hfresh.2.2, ← hr]
    apply List.mem_map_of_mem
    rw [List.mem_range]
    unfold WIN_MAX_DAMAGE
    omega
  · intro hpos
    exact absurd hpos (Nat.lt_irrefl 0)
  · intro hl
    exact nomatch hl
  · intro v hv
    obtain ⟨h1, h2, -⟩ := h.entire v hv
    exact ⟨h1, h2, rfl⟩

theorem Inv.clearCount (h : Inv s) (hs : s.comp = .clearCount f) :
    Inv { s with rectCount := 0, comp := .clearDirty f } := by
  constructor
  · exact Nat.zero_le _
  · exact h.current.cleared _
  · trivial
  · intro p hp
    have hheld := (h.owed p hp).2.2
    unfold Held at hheld
    rw [hs] at hheld
    exact hheld.elim
  · intro hpos
    exact absurd hpos (Nat.lt_irrefl 0)
  · intro _ hpos
    exact absurd hpos (Nat.lt_irrefl 0)
  · intro v hv
    obtain ⟨h1, h2, h3⟩ := h.entire v hv
    rw [hs] at h3
    exact ⟨h1, h2, h3⟩

/-- `dirty` is cleared, and the compositor looks at the list again, or the client goes on. -/
theorem Inv.setDirty (h : Inv s) {c k : Comp} {d : Bool} (hs : s.comp = c)
    (hheld : ∀ r, Held s r → Listed s 0 r) (hk : k.plain = true)
    (hd : 0 < s.rectCount → d = true ∨ s.client.marks = true ∨ k.acks = true)
    (hdrop : k.dropsEntire = true → c.dropsEntire = true) :
    Inv { s with dirty := d, comp := k } where
  count := h.count
  current := h.current
  fresh := fresh_plain hk
  owed p hp := by
    obtain ⟨h1, h2, h3⟩ := h.owed p hp
    exact ⟨h1, h2, (held_plain hk rfl p.1).mpr (hheld p.1 h3)⟩
  dirty := hd
  late hl := absurd ((dropsDirty_plain hk).symm.trans hl) Bool.false_ne_true
  entire v hv := by
    obtain ⟨h1, h2, h3⟩ := h.entire v hv
    refine ⟨h1, h2, ?_⟩
    by_contra hn
    rw [hs, hdrop (by simpa using hn)] at h3
    exact nomatch h3

theorem Inv.clearDirty (h : Inv s) (hs : s.comp = .clearDirty f) :
    Inv { s with
      dirty := false
      comp := match f.kind with
        | .normal => .ackDirty f
        | .onTop => .testEntireCount f
        | .zoomed => .clearEntire f } := by
  have hheld : ∀ r, Held s r → Listed s 0 r := by
    intro r hr
    unfold Held at hr
    rwa [hs] at hr
  have hlate : f.kind ≠ .normal → 0 < s.rectCount → s.client.marks = true := by
    intro hk
    apply h.late
    rw [hs]
    simpa [Comp.dropsDirty] using hk
  cases hk : f.kind with
  | normal => exact h.setDirty hs hheld rfl (fun _ => .inr (.inr rfl)) (fun hd => nomatch hd)
  | onTop =>
    exact h.setDirty hs hheld rfl (fun hpos => .inr (.inl (hlate (by simp [hk]) hpos)))
      (fun hd => nomatch hd)
  | zoomed =>
    apply h.setDirty hs hheld rfl (fun hpos => .inr (.inl (hlate (by simp [hk]) hpos)))
    intro _
    simp [Comp.dropsEntire, hk]

theorem Inv.composeAll (h : Inv s) (hs : s.comp = .composeAll f) :
    Inv { composeWindow s with
      comp := match f.kind with
        | .normal => .clearEntireTest f
        | .onTop => .clearEntire f
        | .zoomed => .clearCount f } ∧
      (composeWindow s).owed = [] ∧ (composeWindow s).owedEntire = none := by
  have howed : (composeWindow s).owed = [] := by
    apply List.filter_eq_nil_iff.mpr
    intro p hp
    have := (h.owed p hp).1
    simpa using this
  have hentire : (composeWindow s).owedEntire = none := by
    change s.owedEntire.filter _ = none
    cases ho : s.owedEntire with
    | none => rfl
    | some v =>
      have := (h.entire v ho).1
      simpa using this
  refine ⟨?_, howed, hentire⟩
  constructor
  · exact h.count
  · exact h.current
  · dsimp only
    unfold Fresh
    cases f.kind <;> trivial
  · intro p hp
    rw [howed] at hp
    exact nomatch hp
  · intro hpos
    rcases h.dirty hpos with hd | hd | hd
    · exact .inl hd
    · exact .inr (.inl hd)
    · rw [hs] at hd
      exact nomatch hd
  · intro hl
    dsimp only at hl
    cases hk : f.kind <;> rw [hk] at hl <;> exact nomatch hl
  · intro v hv
    rw [hentire] at hv
    exact nomatch hv

theorem Inv.clearEntire (h : Inv s) (hs : s.comp = .clearEntire f) :
    Inv { s with updateEntire := false, comp := .idle } := by
  have hg := h.goto hs rfl (k := .idle) rfl (fun ha => nomatch ha) (fun hd => nomatch hd)
  constructor
  · exact hg.count
  · exact hg.current
  · trivial
  · exact hg.owed
  · exact hg.dirty
  · intro hl
    exact nomatch hl
  · intro v hv
    have h3 := (h.entire v hv).2.2
    rw [hs] at h3
    exact nomatch h3

/-- From a plain phase into the list, and within it. -/
theorem Inv.enter (h : Inv s) {c k : Comp} (hs : s.comp = c)
    (hfresh : Fresh { s with comp := k })
    (hheld : ∀ r, Held s r → Held { s with comp := k } r) (hacks : c.acks = false)
    (hlate : k.dropsDirty = false) (hdrop : k.dropsEntire = false) : Inv { s with comp := k } :=
  h.move k hfresh (fun p _ => hheld p.1)
    (fun ha => absurd ((hs ▸ hacks).symm.trans ha) Bool.false_ne_true) hlate
    (fun hd => absurd (hdrop.symm.trans hd) Bool.false_ne_true)

/-- What is held, by the step of the compositor. -/
theorem Held.unfolded {r : Rect} (h : Held s r) : match s.comp with
    | .compose _ damage => r ∈ damage
    | .walk _ k => Listed s k r
    | .clearCount _ => False
    | _ => Listed s 0 r := h

theorem Inv.comp (h : Inv s) : Inv (compStep s) := by
  have hheld := fun r (hr : Held s r) => hr.unfolded
  have hfresh := h.fresh
  unfold Fresh at hfresh
  unfold compStep
  cases hs : s.comp with
  | idle => exact h
  | testDirty f =>
    dsimp only
    split <;> split <;>
      exact h.goto hs rfl rfl (absurd · Bool.false_ne_true) (absurd · Bool.false_ne_true)
  | testCount f =>
    rw [hs] at hheld
    dsimp only
    split
    next hk =>
      split
      · exact h.enter (k := .takeLoad f) hs hk hheld rfl rfl rfl
      · exact h.goto hs rfl rfl (absurd · Bool.false_ne_true) (absurd · Bool.false_ne_true)
    next hk =>
      split
      · exact h.enter (k := .walk f 0) hs ⟨hk, Nat.zero_le _⟩ hheld rfl rfl rfl
      · exact h.goto hs rfl rfl (absurd · Bool.false_ne_true) (absurd · Bool.false_ne_true)
    next =>
      split <;> exact h.goto hs rfl rfl (absurd · Bool.false_ne_true) (absurd · Bool.false_ne_true)
  | takeLoad f =>
    rw [hs] at hheld hfresh
    exact h.enter (k := .takeCopy f s.rectCount) hs ⟨hfresh, Nat.le_refl _⟩ hheld rfl rfl rfl
  | takeCopy f raw =>
    rw [hs] at hheld hfresh
    exact h.enter (k := .takeCas f raw (copyDamage s raw)) hs ⟨hfresh.1, hfresh.2, rfl⟩ hheld rfl rfl
      rfl
  | takeCas f raw out =>
    rw [hs] at hheld hfresh
    dsimp only
    split
    next hraw => exact h.taken hs hraw
    next =>
      exact h.enter (k := .takeCopy f s.rectCount) hs ⟨hfresh.1, Nat.le_refl _⟩ hheld rfl rfl rfl
  | compose f damage =>
    cases damage with
    | nil =>
      rw [hs] at hheld hfresh
      apply h.move (.clearCount f) trivial
      · intro p _ hp
        have hmem := hheld p.1 hp
        exact absurd hmem List.not_mem_nil
      · intro ha
        rw [hs] at ha
        exact absurd ha Bool.false_ne_true
      · rfl
      · intro hd
        have hk : f.kind = .zoomed := by simpa [Comp.dropsEntire] using hd
        have hk' : f.kind = .normal := hfresh.1
        cases hk.symm.trans hk'
    | cons r damage => exact h.compose hs
  | walk f k =>
    rw [hs] at hheld hfresh
    dsimp only
    split
    next hk => exact h.walk hs hk
    next hk =>
      apply h.move (.clearCount f) trivial
      · intro p _ hp
        obtain ⟨j, hj, hj', -⟩ := hheld p.1 hp
        omega
      · intro ha
        rw [hs] at ha
        exact absurd ha Bool.false_ne_true
      · rfl
      · intro hd
        have hk : f.kind = .zoomed := by simpa [Comp.dropsEntire] using hd
        have hk' : f.kind = .onTop := hfresh.1
        cases hk.symm.trans hk'
  | clearCount f => exact h.clearCount hs
  | clearDirty f => exact h.clearDirty hs
  | ackDirty f =>
    rw [hs] at hheld
    exact h.setDirty hs hheld rfl (fun _ => .inr (.inr rfl)) (absurd · Bool.false_ne_true)
  | ackCount f =>
    dsimp only
    split
    · exact h.goto hs rfl rfl (fun _ => .inl rfl) (absurd · Bool.false_ne_true)
    next hz =>
      exact h.goto hs rfl rfl (fun _ => .inr (.inl (not_not.mp hz))) (absurd · Bool.false_ne_true)
  | ackSet f =>
    rw [hs] at hheld
    exact h.setDirty hs hheld rfl (fun _ => .inl rfl) (absurd · Bool.false_ne_true)
  | testEntireCount f =>
    dsimp only
    split
    · split <;> exact h.goto hs rfl rfl (absurd · Bool.false_ne_true) (absurd · Bool.false_ne_true)
    · split <;> exact h.goto hs rfl rfl (absurd · Bool.false_ne_true) (absurd · Bool.false_ne_true)
  | testEntire f =>
    dsimp only
    split <;> exact h.goto hs rfl rfl (absurd · Bool.false_ne_true) (absurd · Bool.false_ne_true)
  | composeAll f => exact (h.composeAll hs).1
  | clearEntireTest f =>
    dsimp only
    split
    · exact h.goto hs rfl rfl (absurd · Bool.false_ne_true) (fun _ => rfl)
    · exact h.goto hs rfl rfl (absurd · Bool.false_ne_true) (absurd · Bool.false_ne_true)
  | clearEntire f => exact h.clearEntire hs

end Xeneva.Deodhai
