import Xeneva.Deodhai.DamageRun

/-!
# A quiet frame composes what is owed

While the client does nothing the compositor reaches the end of its frame, since a rank falls at
every step it makes; and what it knows in each phase of a frame that shows the window leaves nothing
owed at the end.
-/

namespace Xeneva.Deodhai
open Base

variable {s : Win} {f : Frame}

@[simp] theorem composeRect_client (s : Win) (r : Rect) : (composeRect s r).client = s.client := by
  unfold composeRect
  split <;> rfl

theorem compStep_client (s : Win) : (compStep s).client = s.client := by
  unfold compStep
  split <;> first | rfl | (repeat' split) <;> first | rfl | exact composeRect_client _ _

/-! ## The frame ends -/

/-- How far the end of the frame is at most. -/
def rank (s : Win) : ℕ :=
  match s.comp with
  | .idle => 0
  | .clearEntire _ => 1
  | .clearEntireTest _ => 2
  | .composeAll f => if f.kind = .zoomed then 12 else 3
  | .testEntire f => if f.kind = .zoomed then 13 else 4
  | .testEntireCount f => if f.kind = .zoomed then 14 else 5
  | .ackSet _ => 15
  | .ackCount _ => 16
  | .ackDirty _ => 17
  | .clearDirty f => if f.kind = .zoomed then 10 else 20
  | .clearCount f => if f.kind = .zoomed then 11 else 21
  | .compose _ damage => 22 + damage.length
  | .walk _ k => 22 + (s.rectCount - k)
  | .takeCas _ raw _ => if s.rectCount = raw then 301 else 303
  | .takeCopy _ raw => if s.rectCount = raw then 302 else 304
  | .takeLoad _ => 305
  | .testCount _ => 310
  | .testDirty _ => 311

theorem rank_composeRect (s : Win) (r : Rect) (k : ℕ) :
    rank { composeRect s r with comp := .walk f k } = 22 + (s.rectCount - k) := by
  obtain ⟨o, ho, -⟩ := composeRect_eq s r
  rw [ho]
  rfl

theorem Inv.rank_lt (h : Inv s) (hs : s.comp ≠ .idle) : rank (compStep s) < rank s := by
  have hcount := h.count
  have hfresh := h.fresh
  unfold Fresh at hfresh
  unfold compStep
  rw [rank.eq_def s]
  cases hc : s.comp with
  | idle => exact absurd hc hs
  | testDirty f =>
    dsimp only
    split <;> split <;> dsimp only [rank] <;> (repeat' split) <;> omega
  | testCount f =>
    dsimp only
    repeat' split
    all_goals dsimp only [rank]
    all_goals (repeat' split) <;> omega
  | takeLoad f => simp [rank]
  | takeCopy f raw =>
    dsimp only [rank]
    split <;> omega
  | takeCas f raw out =>
    rw [hc] at hfresh
    have hout : out.length ≤ 256 := by
      rw [hfresh.2.2, copyDamage, List.length_map, List.length_range]
      exact Nat.min_le_right _ _
    dsimp only
    by_cases hraw : s.rectCount = raw
    · rw [if_pos hraw, if_pos hraw]
      dsimp only [rank]
      omega
    · rw [if_neg hraw, if_neg hraw]
      simp [rank]
  | compose f damage =>
    cases damage with
    | nil =>
      dsimp only [rank]
      split <;> simp
    | cons r damage =>
      dsimp only [rank]
      rw [List.length_cons]
      omega
  | walk f k =>
    dsimp only
    split
    next hk =>
      rw [rank_composeRect]
      omega
    next =>
      dsimp only [rank]
      split <;> omega
  | clearCount f =>
    dsimp only [rank]
    split <;> omega
  | clearDirty f =>
    dsimp only
    cases hk : f.kind <;> simp [rank, hk]
  | ackDirty f => simp [rank]
  | ackCount f =>
    dsimp only
    split <;> dsimp only [rank] <;> (repeat' split) <;> omega
  | ackSet f =>
    dsimp only [rank]
    split <;> omega
  | testEntireCount f =>
    dsimp only
    cases hk : f.kind <;> (repeat' split) <;> simp_all [rank]
  | testEntire f =>
    dsimp only
    cases hk : f.kind <;> (repeat' split) <;> simp_all [rank]
  | composeAll f =>
    dsimp only
    cases hk : f.kind <;> simp [rank, hk]
  | clearEntireTest f =>
    dsimp only
    split <;> simp [rank]
  | clearEntire f => simp [rank]

theorem Inv.rank_le (h : Inv s) : rank s ≤ 311 := by
  have hcount := h.count
  have hfresh := h.fresh
  unfold Fresh at hfresh
  unfold rank
  cases hc : s.comp <;> dsimp only <;> (repeat' split) <;> try omega
  rw [hc] at hfresh
  have := hfresh.2.2
  unfold WIN_MAX_DAMAGE at this
  omega

/-! ## Nothing is owed at its end -/

/-- The frame shows the window, and what each phase of it knows when the client does nothing. -/
def Ready (s : Win) : Prop :=
  match s.comp with
  | .idle => s.owed = [] ∧ s.owedEntire = none
  | .clearEntireTest _ | .clearEntire _ => s.owed = []
  | .clearDirty f | .ackDirty f | .ackCount f | .ackSet f | .testEntireCount f | .testEntire f =>
    f.Shows ∧ s.rectCount = 0
  | .testDirty f | .testCount f | .takeLoad f | .takeCopy f _ | .takeCas f _ _ | .compose f _
  | .walk f _ | .clearCount f | .composeAll f => f.Shows

/-- Nothing is owed when the list is empty. -/
theorem Inv.owed_nil (h : Inv s) (hheld : ∀ r, Held s r → Listed s 0 r) (hz : s.rectCount = 0) :
    s.owed = [] := by
  rw [List.eq_nil_iff_forall_not_mem]
  intro p hp
  obtain ⟨j, -, hj, -⟩ := hheld p.1 (h.owed p hp).2.2
  omega

/-- The window has composed the full update when it clears the flag. -/
theorem Inv.owedEntire_none (h : Inv s) (hd : s.comp.dropsEntire = true) : s.owedEntire = none := by
  cases ho : s.owedEntire with
  | none => rfl
  | some v => exact absurd ((h.entire v ho).2.2.symm.trans hd) Bool.false_ne_true

theorem Inv.ready (h : Inv s) (hc : s.client = .idle) (hr : Ready s) : Ready (compStep s) := by
  have hheld : ∀ {c : Comp}, s.comp = c → c.plain = true → ∀ r, Held s r → Listed s 0 r :=
    fun hs hp r => (held_plain hp hs r).mp
  unfold Ready at hr
  unfold compStep
  cases hs : s.comp with
  | idle =>
    dsimp only
    unfold Ready
    rw [hs] at hr ⊢
    exact hr
  | testDirty f =>
    rw [hs] at hr
    dsimp only
    split
    · split <;> exact hr
    next hd =>
      split
      · exact hr
      · refine ⟨hr, ?_⟩
        by_contra hne
        rcases h.dirty (Nat.pos_of_ne_zero hne) with hd' | hd' | hd'
        · exact hd hd'
        · rw [hc] at hd'
          exact nomatch hd'
        · rw [hs] at hd'
          exact nomatch hd'
  | testCount f =>
    rw [hs] at hr
    dsimp only
    split
    next hk =>
      split
      · exact hr
      next hn =>
        have ho : f.overlapped = false := hr hk
        refine ⟨hr, ?_⟩
        rw [ho] at hn
        simpa using hn
    next =>
      split
      · exact hr
      next hn => exact ⟨hr, Nat.eq_zero_of_not_pos hn⟩
    next =>
      split
      · exact hr
      next hn => exact ⟨hr, Nat.eq_zero_of_not_pos hn⟩
  | takeLoad f =>
    rw [hs] at hr
    exact hr
  | takeCopy f raw =>
    rw [hs] at hr
    exact hr
  | takeCas f raw out =>
    rw [hs] at hr
    dsimp only
    split <;> exact hr
  | compose f damage =>
    rw [hs] at hr
    cases damage with
    | nil => exact hr
    | cons r damage => exact hr
  | walk f k =>
    rw [hs] at hr
    dsimp only
    split <;> exact hr
  | clearCount f =>
    rw [hs] at hr
    exact ⟨hr, rfl⟩
  | clearDirty f =>
    rw [hs] at hr
    dsimp only
    cases hk : f.kind with
    | normal => exact hr
    | onTop => exact hr
    | zoomed =>
      apply h.owed_nil _ hr.2
      intro r hheld
      unfold Held at hheld
      rwa [hs] at hheld
  | ackDirty f =>
    rw [hs] at hr
    exact hr
  | ackCount f =>
    rw [hs] at hr
    dsimp only
    split <;> exact hr
  | ackSet f =>
    rw [hs] at hr
    exact hr
  | testEntireCount f =>
    rw [hs] at hr
    dsimp only
    split
    · rw [if_neg]
      · exact hr.1
      · intro ho
        have := hr.1 ho.1
        simp [this] at ho
    · rw [if_pos hr.2]
      exact hr
  | testEntire f =>
    rw [hs] at hr
    dsimp only
    split
    · exact hr.1
    next hn =>
      refine ⟨h.owed_nil (hheld hs rfl) hr.2, ?_⟩
      -- a full update that is owed has its flag set
      cases ho : s.owedEntire with
      | none => rfl
      | some v =>
        apply absurd _ hn
        refine ⟨(h.entire v ho).2.1, ?_⟩
        intro hk
        have := hr.1 hk.1
        simp [this] at hk
  | composeAll f =>
    rw [hs] at hr
    obtain ⟨-, howed, -⟩ := h.composeAll hs
    dsimp only
    cases hk : f.kind with
    | normal => exact howed
    | onTop => exact howed
    | zoomed => exact hr
  | clearEntireTest f =>
    rw [hs] at hr
    dsimp only
    split
    · exact hr
    · exact ⟨hr, h.owedEntire_none (by rw [hs]; rfl)⟩
  | clearEntire f =>
    rw [hs] at hr
    exact ⟨hr, h.owedEntire_none (by rw [hs]; rfl)⟩

/-- The compositor alone keeps the invariant. -/
theorem Inv.comps (h : Inv s) (hc : s.client = .idle) (n : ℕ) :
    Inv (compStep^[n] s) ∧ (compStep^[n] s).client = .idle ∧
      (Ready s → Ready (compStep^[n] s)) := by
  induction n generalizing s with
  | zero => exact ⟨h, hc, id⟩
  | succ n ih =>
    rw [Function.iterate_succ_apply]
    obtain ⟨h1, h2, h3⟩ := ih h.comp ((compStep_client s).trans hc)
    exact ⟨h1, h2, fun hr => h3 (h.ready hc hr)⟩

theorem Inv.comps_idle (h : Inv s) {n : ℕ} (hn : rank s ≤ n) : (compStep^[n] s).comp = .idle := by
  induction n generalizing s with
  | zero =>
    by_contra hs
    have := h.rank_lt hs
    omega
  | succ n ih =>
    rw [Function.iterate_succ_apply]
    by_cases hs : s.comp = .idle
    · apply ih h.comp
      have hidle : (compStep s).comp = .idle := by
        unfold compStep
        rw [hs]
        exact hs
      unfold rank
      rw [hidle]
      exact Nat.zero_le n
    · have := h.rank_lt hs
      exact ih h.comp (by omega)

theorem beginFrame_client (f : Frame) (s : Win) : (beginFrame f s).client = s.client := by
  unfold beginFrame
  split <;> rfl

theorem ready_beginFrame (hs : s.comp = .idle) (hf : f.Shows) : Ready (beginFrame f s) := by
  unfold beginFrame
  rw [hs]
  exact hf

/-- One more frame, once the compositor is at the end of its own. -/
theorem Inv.next_frame (h : Inv s) (hc : s.client = .idle) (hs : s.comp = .idle) (hf : f.Shows)
    {n : ℕ} (hn : 311 ≤ n) :
    (compStep^[n] (beginFrame f s)).comp = .idle ∧ (compStep^[n] (beginFrame f s)).owed = [] ∧
      (compStep^[n] (beginFrame f s)).owedEntire = none := by
  have hb := h.frame f
  have hend := hb.comps_idle (Nat.le_trans hb.rank_le hn)
  have hr := (hb.comps ((beginFrame_client f s).trans hc) n).2.2 (ready_beginFrame hs hf)
  unfold Ready at hr
  rw [hend] at hr
  exact ⟨hend, hr⟩

/-- The invariant is what a frame needs. -/
theorem Inv.composed (h : Inv s) : Composed s := by
  intro hc f hf
  have hn : 311 ≤ FRAME_STEPS := by decide
  unfold settle
  generalize FRAME_STEPS = n at hn
  obtain ⟨h1, hc1, -⟩ := h.comps hc n
  exact h1.next_frame hc1 (h.comps_idle (Nat.le_trans h.rank_le hn)) hf hn

theorem step_inv (s : ℕ → Win) (a : ℕ × Act) (h : ∀ w, Inv (s w)) (hok : StepOk s a) :
    ∀ w, Inv (step s a w) := by
  intro w
  unfold step
  by_cases hw : w = a.1
  · subst hw
    rw [Function.update_self]
    cases ha : a.2 with
    | update x y width height entire dirty => exact (h _).update _ _ _ _ _ _
    | client => exact (h _).client (hok ha)
    | frame f => exact (h _).frame f
    | comp => exact (h _).comp
  · rw [Function.update_of_ne hw]
    exact h w

/-- A window of a run in which the two sides do not collide discards nothing, and composes all that
is owed. -/
theorem exec_composed (size : ℕ → ℤ × ℤ) (as : List (ℕ × Act))
    (h : Respects StepOk step (init size) as) (w : ℕ) :
    Kept (run step (init size) as w) ∧ Composed (run step (init size) as w) := by
  have hinv := h.invariant (I := fun s => ∀ w, Inv (s w)) step_inv
    fun i => inv_init (size i).1 (size i).2
  exact ⟨fun p hp => ((hinv w).owed p hp).2.2, (hinv w).composed⟩

/-- A call of the client for a rectangle of the first window, with the five steps that follow. -/
def callSteps (x y w h : ℤ) : List (ℕ × Act) :=
  (0, .update x y w h false true) :: List.replicate 5 (0, .client)

theorem exec_composed_two :
    Composed (run step (init fun _ => (10, 10))
      (callSteps 1 1 2 2 ++ [(0, .frame {})] ++ List.replicate 30 (0, .comp) ++
        callSteps 4 4 2 2) 0) :=
  (exec_composed _ _ (by decide +kernel) 0).2

/-- A rectangle that is published after the list is taken, and before it is cleared, is lost. -/
theorem not_exec_composed :
    ¬∀ (size : ℕ → ℤ × ℤ) (as : List (ℕ × Act)) (w : ℕ), Composed (run step (init size) as w) := by
  intro h
  have hlost := (h (fun _ => (10, 10))
    (callSteps 1 1 2 2 ++ [(0, .frame {})] ++ List.replicate 5 (0, .comp) ++ callSteps 4 4 2 2) 0
    (by decide +kernel) {} (fun _ => rfl)).2.1
  revert hlost
  decide +kernel

end Xeneva.Deodhai
