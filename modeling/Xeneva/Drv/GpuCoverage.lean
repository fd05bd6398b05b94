import Xeneva.Base.Run
import Xeneva.Drv.GpuProxy

/-!
# Damage is not lost

Beside the proxy stand the pixels that are owed to the display: those that were damaged and have
not been in a frame that was taken afterwards and acknowledged.
-/

namespace Xeneva.Gpu

open Xeneva.Base

def rect (x y w h : ℕ) : Set (ℕ × ℕ) := {p | x ≤ p.1 ∧ p.1 < x + w ∧ y ≤ p.2 ∧ p.2 < y + h}

def GpuSrvFrame.pixels (f : GpuSrvFrame) : Set (ℕ × ℕ) := rect f.x f.y f.width f.height

/-- The pending rectangle by its four sides. -/
def GpuDamage.sides (d : GpuDamage) : Option (ℕ × ℕ × ℕ × ℕ) :=
  if d.dirty then some (d.left, d.top, d.right, d.bottom) else none

def GpuDamage.pixels (d : GpuDamage) : Set (ℕ × ℕ) :=
  {p | d.dirty ∧ d.left ≤ p.1 ∧ p.1 < d.right ∧ d.top ≤ p.2 ∧ p.2 < d.bottom}

/-- The proxy with the pixels that are owed, those of them that the frame in flight brings up to
date, and the frame in flight. -/
structure Tracked where
  proxy : GpuProxy
  owed : Set (ℕ × ℕ)
  taken : Set (ℕ × ℕ)
  inFlight : Option GpuSrvFrame

/-- The pixels that a call damages; a new server gets the whole display. -/
def damaged (s : GpuProxy) : GpuOp → Set (ℕ × ℕ)
  | .acquire _ req env => match gpuAcquireCheck s req env with
    | .ok _ => rect 0 0 req.width req.height
    | .error _ => ∅
  | .damage displayOwner copyin x y w h =>
    if (gpuDamageCall s displayOwner copyin x y w h).2 = .ok then rect x y w h else ∅
  | .consoleDamage x y width height =>
    if (s.gpu_attached ∧ s.gpu_ready ∧ width > 0 ∧ height > 0) ∧
        (gpuDamageAdd s.gpu_damage x.toNat y.toNat width.toNat height.toNat).isSome then
      rect x.toNat y.toNat width.toNat height.toNat
    else ∅
  | _ => ∅

/-- The server of the display is gone. -/
def gone (s : GpuProxy) (proc hw_device : Option ℕ) : Prop :=
  ¬ (proc ≠ s.gpu_owner ∨ hw_device ≠ s.gpu_hw_device)

instance (s : GpuProxy) (proc hw_device : Option ℕ) : Decidable (gone s proc hw_device) :=
  inferInstanceAs (Decidable (¬ _))

/-- `died` says what becomes of the owed pixels when the server of the display is gone. -/
def trackedStep (died : Set (ℕ × ℕ) → Set (ℕ × ℕ)) (t : Tracked) (op : GpuOp) : Tracked :=
  let proxy := gpuStep t.proxy op
  match op with
  | .take proc env => match (gpuTake t.proxy proc env).2 with
    | .ok f => { t with proxy, taken := f.pixels, inFlight := some f }
    | .error _ => { t with proxy }
  | .ack proc copyin sequence =>
    if (gpuAck t.proxy proc copyin sequence).2 = .ok then
      { proxy, owed := t.owed \ t.taken, taken := ∅, inFlight := none }
    else { t with proxy }
  | .ownerGone proc hw_device =>
    if gone t.proxy proc hw_device then
      { proxy, owed := died t.owed, taken := ∅, inFlight := none }
    else { t with proxy }
  | op => { t with
      proxy
      owed := t.owed ∪ damaged t.proxy op
      taken := t.taken \ damaged t.proxy op }

/-- Every owed pixel is in the pending rectangle or in the frame in flight. -/
def Covered (t : Tracked) : Prop :=
  ∀ p ∈ t.owed, p ∈ t.proxy.gpu_damage.pixels ∨ ∃ f ∈ t.inFlight, p ∈ f.pixels

/-- A frame is handed out when none is in flight, and lies inside the display; a call that fails
leaves the pending damage as it was. -/
def TakesRight (t : Tracked) : GpuOp → Prop
  | .take proc env => match (gpuTake t.proxy proc env).2 with
    | .ok f => t.inFlight = none ∧ f.x + f.width ≤ t.proxy.gpu_width ∧
        f.y + f.height ≤ t.proxy.gpu_height
    | .error _ => (gpuTake t.proxy proc env).1.gpu_damage.sides = t.proxy.gpu_damage.sides
  | _ => True

def bootTracked : Tracked := ⟨bootGpu, ∅, ∅, none⟩

/-- The pending rectangle is not empty and lies inside the display. -/
def Inside (d : GpuDamage) : Prop :=
  d.dirty → (d.left < d.right ∧ d.right ≤ d.width) ∧ d.top < d.bottom ∧ d.bottom ≤ d.height

/-- An addition keeps the size of the display and the frame in flight, and the new pending
rectangle contains the old one and the added one. -/
structure Grows (d d' : GpuDamage) (x y w h : ℕ) : Prop where
  width : d'.width = d.width
  height : d'.height = d.height
  busy : d'.busy = d.busy
  next : d'.next = d.next
  pending : d'.pending = d.pending
  inside : Inside d → Inside d'
  old : d.pixels ⊆ d'.pixels
  new : rect x y w h ⊆ d'.pixels

theorem gpuDamageAdd_grows {d d' : GpuDamage} {x y w h : ℕ}
    (hadd : gpuDamageAdd d x y w h = some d') : Grows d d' x y w h := by
  unfold gpuDamageAdd at hadd
  split at hadd
  · exact absurd hadd nofun
  case isFalse hfit =>
    simp only [not_or, Nat.not_le, not_lt] at hfit
    obtain ⟨hw, hh, hx, hy, hwx, hhy⟩ := hfit
    simp only at hadd
    split at hadd
    case isTrue hclean =>
      rw [← Option.some.inj hadd]
      refine ⟨rfl, rfl, rfl, rfl, rfl, fun _ _ => ?_, fun p hp => ?_, fun p hp => ?_⟩
      · simp only
        omega
      · rw [hp.1] at hclean
        exact absurd hclean Bool.false_ne_true
      · exact ⟨rfl, hp⟩
    case isFalse hdirty =>
      have hd : d.dirty = true := by simpa using hdirty
      rw [← Option.some.inj hadd]
      refine ⟨rfl, rfl, rfl, rfl, rfl, fun hin _ => ?_, fun p hp => ?_, fun p hp => ?_⟩
      · have := hin hd
        simp only
        split_ifs <;> omega
      · obtain ⟨-, hl, hr, ht, hb⟩ := hp
        refine ⟨hd, ?_, ?_, ?_, ?_⟩ <;> simp only <;> split <;> omega
      · obtain ⟨hl, hr, ht, hb⟩ := hp
        refine ⟨hd, ?_, ?_, ?_, ?_⟩ <;> simp only <;> split <;> omega

/-- A rectangle inside the display is not refused. -/
theorem gpuDamageAdd_isSome {d : GpuDamage} {x y w h : ℕ} (hw : 0 < w) (hh : 0 < h)
    (hx : x + w ≤ d.width) (hy : y + h ≤ d.height) : (gpuDamageAdd d x y w h).isSome := by
  unfold gpuDamageAdd
  rw [if_neg (by omega)]
  simp only
  split <;> rfl

/-- A frame that is taken is the pending rectangle, and nothing is pending any more. -/
theorem gpuDamageTake_ok {d d' : GpuDamage} {f : GpuSrvFrame}
    (h : gpuDamageTake d = .ok (d', f)) : d.busy = false ∧ d.dirty = true ∧
      d' = { d with next := f.sequence, pending := f.sequence, busy := true, dirty := false } ∧
      f.x = d.left ∧ f.y = d.top ∧ f.width = d.right - d.left ∧ f.height = d.bottom - d.top := by
  unfold gpuDamageTake at h
  split at h
  · exact absurd h nofun
  split at h
  · exact absurd h nofun
  case isFalse hbusy hdirty =>
    obtain ⟨hd, hf⟩ := Prod.mk.inj (Except.ok.inj h)
    rw [← hf]
    exact ⟨by simpa using hbusy, by simpa using hdirty, hd.symm, rfl, rfl, rfl, rfl⟩

/-- A call is refused, takes the pending damage, or takes it and puts it back. -/
theorem gpuTake_cases (s : GpuProxy) (proc : Option ℕ) (env : TakeEnv) :
    (∃ rc, gpuTake s proc env = (s, .error rc)) ∨
    (∃ d f, s.gpu_attached ∧ gpuDamageTake s.gpu_damage = .ok (d, f) ∧
      gpuTake s proc env =
        ({ s with gpu_damage := d, gpu_submitted := s.gpu_submitted + 1 }, .ok f)) ∨
    (∃ d f rc, s.gpu_attached ∧ gpuDamageTake s.gpu_damage = .ok (d, f) ∧
      gpuTake s proc env = ({ s with
        gpu_damage := (gpuDamageAdd ((gpuDamageAck d f.sequence).getD d) f.x f.y f.width
          f.height).getD ((gpuDamageAck d f.sequence).getD d) }, .error rc)) := by
  unfold gpuTake
  split
  · exact Or.inl ⟨_, rfl⟩
  case isFalse hperm =>
    have hatt : s.gpu_attached = true := by
      by_contra hn
      exact hperm (Or.inr (Or.inl (by simpa using hn)))
    split
    case h_1 rc _ => exact Or.inl ⟨rc, rfl⟩
    case h_2 d f htake =>
      simp only
      generalize (if (!gpuCopyRect s env f) = true then GpuSrvResult.unavailable
        else if (!env.copyout) = true then .inval else .ok) = rc
      by_cases hrc : rc = .ok
      · rw [if_neg (not_not.mpr hrc)]
        exact Or.inr (Or.inl ⟨d, f, hatt, htake, rfl⟩)
      · rw [if_pos hrc]
        exact Or.inr (Or.inr ⟨d, f, rc, hatt, htake, rfl⟩)

/-- A frame that is given back leaves the damage as it was, up to the frame numbers. -/
theorem give_back {d d' : GpuDamage} {f : GpuSrvFrame} (hin : Inside d)
    (h : gpuDamageTake d = .ok (d', f)) :
    (gpuDamageAdd ((gpuDamageAck d' f.sequence).getD d') f.x f.y f.width f.height).getD
      ((gpuDamageAck d' f.sequence).getD d') =
        { d with next := f.sequence, pending := f.sequence } := by
  obtain ⟨hbusy, hdirty, hd', hx, hy, hw, hh⟩ := gpuDamageTake_ok h
  obtain ⟨⟨hlr, hr⟩, htb, hb⟩ := hin hdirty
  have hack : (gpuDamageAck d' f.sequence).getD d' =
      { d with next := f.sequence, pending := f.sequence, dirty := false } := by
    rw [hd', gpuDamageAck, if_neg (by simp)]
    simp [hbusy]
  have hfit : ¬ (f.width = 0 ∨ f.height = 0 ∨ f.x ≥ d.width ∨ f.y ≥ d.height ∨
      f.width > d.width - f.x ∨ f.height > d.height - f.y) := by
    rw [hx, hy, hw, hh]
    omega
  rw [hack, gpuDamageAdd, if_neg hfit]
  simp only [Bool.not_false, if_true, Option.getD_some, hx, hy, hw, hh]
  rw [Nat.add_sub_cancel' hlr.le, Nat.add_sub_cancel' htb.le, ← hdirty]

/-- What is owed is pending or in the frame in flight; without a server nothing is owed. -/
structure GpuInv (t : Tracked) : Prop where
  inside : Inside t.proxy.gpu_damage
  width : t.proxy.gpu_damage.width = t.proxy.gpu_width
  height : t.proxy.gpu_damage.height = t.proxy.gpu_height
  owed : t.owed ⊆ t.proxy.gpu_damage.pixels ∪ t.taken
  taken : ∀ p ∈ t.taken, ∃ f ∈ t.inFlight, p ∈ f.pixels
  busy : t.proxy.gpu_damage.busy = t.inFlight.isSome
  detached : t.proxy.gpu_attached = false →
    t.proxy.gpu_width = 0 ∧ t.owed = ∅ ∧ t.inFlight = none

variable {t : Tracked}

theorem GpuInv.covered (hi : GpuInv t) : Covered t := by
  intro p hp
  rcases hi.owed hp with h | h
  · exact Or.inl h
  · exact Or.inr (hi.taken p h)

/-- An addition to the damage that is accepted. -/
theorem GpuInv.grow (hi : GpuInv t) {x y w h : ℕ} {d : GpuDamage}
    (hadd : gpuDamageAdd t.proxy.gpu_damage x y w h = some d) :
    GpuInv { t with
      proxy := { t.proxy with gpu_damage := d }
      owed := t.owed ∪ rect x y w h
      taken := t.taken \ rect x y w h } := by
  have hg := gpuDamageAdd_grows hadd
  have hatt : t.proxy.gpu_attached = true := by
    by_contra hn
    have hw := (hi.detached (by simpa using hn)).1
    have hzero : t.proxy.gpu_damage.width = 0 := hi.width.trans hw
    rw [gpuDamageAdd, if_pos (by omega)] at hadd
    exact absurd hadd nofun
  constructor
  · exact hg.inside hi.inside
  · exact hg.width.trans hi.width
  · exact hg.height.trans hi.height
  · intro p hp
    by_cases hr : p ∈ rect x y w h
    · exact Or.inl (hg.new hr)
    · rcases hi.owed (hp.resolve_right hr) with hd | ht
      · exact Or.inl (hg.old hd)
      · exact Or.inr ⟨ht, hr⟩
  · exact fun p hp => hi.taken p hp.1
  · exact hg.busy.trans hi.busy
  · intro hn
    rw [hatt] at hn
    exact absurd hn.symm Bool.false_ne_true

/-- A step that damages nothing and leaves the proxy alone. -/
theorem GpuInv.still (hi : GpuInv t) {D : Set (ℕ × ℕ)} (hD : D = ∅) :
    GpuInv { t with owed := t.owed ∪ D, taken := t.taken \ D } := by
  rw [hD, Set.union_empty, Set.sdiff_empty]
  exact hi

/-- A new server finds the whole display damaged. -/
theorem GpuInv.attach (hi : GpuInv t) (hdet : t.proxy.gpu_attached = false) {s : GpuProxy}
    {w h : ℕ} (hw : 0 < w) (hh : 0 < h) (hs : s.gpu_attached = true) (hsw : s.gpu_width = w)
    (hsh : s.gpu_height = h) (hd : s.gpu_damage = gpuDamageReset { width := w, height := h }) :
    GpuInv { t with
      proxy := s
      owed := t.owed ∪ rect 0 0 w h
      taken := t.taken \ rect 0 0 w h } := by
  obtain ⟨-, howed, hfly⟩ := hi.detached hdet
  have hsome : (gpuDamageAdd { width := w, height := h } 0 0 w h).isSome :=
    gpuDamageAdd_isSome hw hh (Nat.le_of_eq (Nat.zero_add w)) (Nat.le_of_eq (Nat.zero_add h))
  obtain ⟨d, hadd⟩ := Option.isSome_iff_exists.mp hsome
  have hg := gpuDamageAdd_grows hadd
  have hds : s.gpu_damage = d := by
    rw [hd, gpuDamageReset]
    exact (congrArg (Option.getD · _) hadd).trans rfl
  constructor
  · rw [hds]
    exact hg.inside fun hdirty => absurd hdirty Bool.false_ne_true
  · rw [hds, hsw]
    exact hg.width
  · rw [hds, hsh]
    exact hg.height
  · intro p hp
    rw [hds]
    rw [howed, Set.empty_union] at hp
    exact Or.inl (hg.new hp)
  · exact fun p hp => hi.taken p hp.1
  · rw [hds, hfly]
    exact hg.busy
  · intro hn
    rw [hs] at hn
    exact absurd hn.symm Bool.false_ne_true

theorem guard_ok {α : Type} {c : Prop} [Decidable c] {rc : GpuSrvResult}
    {x : Except GpuSrvResult α} {a : α} (h : (if c then .error rc else x) = .ok a) :
    ¬ c ∧ x = .ok a := by
  by_cases hc : c
  · rw [if_pos hc] at h
    exact absurd h nofun
  · rw [if_neg hc] at h
    exact ⟨hc, h⟩

/-- A request that passes is the first one, and its display has pixels. -/
theorem gpuAcquireCheck_ok {s : GpuProxy} {req : GpuSrvAcquire} {env : AcquireEnv} {total : ℕ}
    (h : gpuAcquireCheck s req env = .ok total) :
    s.gpu_attached = false ∧ 0 < req.width ∧ 0 < req.height := by
  unfold gpuAcquireCheck at h
  obtain ⟨-, h⟩ := guard_ok h
  obtain ⟨-, h⟩ := guard_ok h
  obtain ⟨hatt, h⟩ := guard_ok h
  obtain ⟨-, h⟩ := guard_ok h
  obtain ⟨-, h⟩ := guard_ok h
  cases hsource : env.source with
  | none =>
    rw [hsource] at h
    exact absurd h nofun
  | some source =>
    rw [hsource] at h
    obtain ⟨-, h⟩ := guard_ok h
    obtain ⟨hbytes, -⟩ := guard_ok h
    have hpos : 0 < req.width * req.height := by
      apply Nat.pos_of_ne_zero
      intro h0
      exact hbytes (Or.inl (by rw [bytesOf, h0]))
    exact ⟨by simpa using hatt, Nat.pos_of_mul_pos_right hpos, Nat.pos_of_mul_pos_left hpos⟩

/-! ## Runs -/

theorem GpuInv.acquire (hi : GpuInv t) (proc : Option ℕ) (req : GpuSrvAcquire)
    (env : AcquireEnv) : GpuInv { t with
      proxy := (gpuAcquire t.proxy proc req env).1
      owed := t.owed ∪ damaged t.proxy (.acquire proc req env)
      taken := t.taken \ damaged t.proxy (.acquire proc req env) } := by
  cases hcheck : gpuAcquireCheck t.proxy req env with
  | error rc =>
    have hs : (gpuAcquire t.proxy proc req env).1 = t.proxy := by
      simp only [gpuAcquire, hcheck]
    have hd : damaged t.proxy (.acquire proc req env) = ∅ := by
      simp only [damaged, hcheck]
    rw [hs]
    exact hi.still hd
  | ok total =>
    obtain ⟨hatt, hw, hh⟩ := gpuAcquireCheck_ok hcheck
    have hd : damaged t.proxy (.acquire proc req env) = rect 0 0 req.width req.height := by
      simp only [damaged, hcheck]
    rw [hd]
    apply hi.attach hatt hw hh
    all_goals simp only [gpuAcquire, hcheck]

theorem gpuDamageCall_cases (s : GpuProxy) (displayOwner copyin : Bool) (x y w h : ℕ) :
    (∃ rc, rc ≠ .ok ∧ gpuDamageCall s displayOwner copyin x y w h = (s, rc)) ∨
    (∃ d, gpuDamageAdd s.gpu_damage x y w h = some d ∧
      gpuDamageCall s displayOwner copyin x y w h = ({ s with gpu_damage := d }, .ok)) := by
  unfold gpuDamageCall
  split
  · exact Or.inl ⟨.perm, nofun, rfl⟩
  split
  · exact Or.inl ⟨.inval, nofun, rfl⟩
  split
  case h_1 => exact Or.inl ⟨.inval, nofun, rfl⟩
  case h_2 d hadd => exact Or.inr ⟨d, hadd, rfl⟩

theorem GpuInv.damage (hi : GpuInv t) (displayOwner copyin : Bool) (x y w h : ℕ) : GpuInv { t with
      proxy := (gpuDamageCall t.proxy displayOwner copyin x y w h).1
      owed := t.owed ∪ damaged t.proxy (.damage displayOwner copyin x y w h)
      taken := t.taken \ damaged t.proxy (.damage displayOwner copyin x y w h) } := by
  rcases gpuDamageCall_cases t.proxy displayOwner copyin x y w h with ⟨rc, hrc, he⟩ | ⟨d, hadd, he⟩
  · have hd : damaged t.proxy (.damage displayOwner copyin x y w h) = ∅ := by
      simp only [damaged, he, hrc, if_false]
    rw [he]
    exact hi.still hd
  · have hd : damaged t.proxy (.damage displayOwner copyin x y w h) = rect x y w h := by
      simp only [damaged, he, if_true]
    rw [he, hd]
    exact hi.grow hadd

theorem GpuInv.consoleDamage (hi : GpuInv t) (x y width height : ℤ) : GpuInv { t with
      proxy := auGpuProxyDamage t.proxy x y width height
      owed := t.owed ∪ damaged t.proxy (.consoleDamage x y width height)
      taken := t.taken \ damaged t.proxy (.consoleDamage x y width height) } := by
  unfold auGpuProxyDamage
  by_cases hon : t.proxy.gpu_attached ∧ t.proxy.gpu_ready ∧ width > 0 ∧ height > 0
  · rw [if_pos hon]
    cases hadd : gpuDamageAdd t.proxy.gpu_damage x.toNat y.toNat width.toNat height.toNat with
    | none =>
      have hd : damaged t.proxy (.consoleDamage x y width height) = ∅ := by
        rw [damaged, hadd]
        exact if_neg fun h => Bool.false_ne_true h.2
      exact hi.still hd
    | some d =>
      have hd : damaged t.proxy (.consoleDamage x y width height) =
          rect x.toNat y.toNat width.toNat height.toNat := by
        rw [damaged, hadd]
        exact if_pos ⟨hon, rfl⟩
      rw [hd]
      exact hi.grow hadd
  · rw [if_neg hon]
    have hd : damaged t.proxy (.consoleDamage x y width height) = ∅ := if_neg fun h => hon h.1
    exact hi.still hd

/-- The pending rectangle that was taken is the frame in flight. -/
theorem GpuInv.take (hi : GpuInv t) (died : Set (ℕ × ℕ) → Set (ℕ × ℕ)) (proc : Option ℕ)
    (env : TakeEnv) :
    GpuInv (trackedStep died t (.take proc env)) ∧ TakesRight t (.take proc env) := by
  unfold trackedStep TakesRight gpuStep
  rcases gpuTake_cases t.proxy proc env with ⟨rc, he⟩ | ⟨d, f, hatt, htake, he⟩ |
    ⟨d, f, rc, hatt, htake, he⟩
  · simp only [he]
    exact ⟨hi, trivial⟩
  · obtain ⟨hbusy, hdirty, hd, hx, hy, hw, hh⟩ := gpuDamageTake_ok htake
    obtain ⟨⟨hlr, hr⟩, htb, hb⟩ := hi.inside hdirty
    have hfly : t.inFlight = none := by
      have hnone := hi.busy.symm.trans hbusy
      simpa using hnone
    have hnone : t.taken = ∅ := by
      apply Set.eq_empty_of_forall_notMem
      intro p hp
      obtain ⟨f', hf', -⟩ := hi.taken p hp
      rw [hfly] at hf'
      exact absurd hf' nofun
    simp only [he]
    refine ⟨⟨?_, ?_, ?_, ?_, ?_, ?_, ?_⟩, hfly, ?_, ?_⟩
    · rw [hd]
      exact fun h => absurd h Bool.false_ne_true
    · rw [hd]
      exact hi.width
    · rw [hd]
      exact hi.height
    · intro p hp
      right
      rcases hi.owed hp with ⟨-, h1, h2, h3, h4⟩ | ht
      · refine ⟨?_, ?_, ?_, ?_⟩ <;> simp only [hx, hy, hw, hh] <;> omega
      · rw [hnone] at ht
        exact absurd ht (Set.notMem_empty p)
    · exact fun p hp => ⟨f, rfl, hp⟩
    · rw [hd]
      rfl
    · intro hn
      rw [hatt] at hn
      exact absurd hn.symm Bool.false_ne_true
    · rw [hx, hw, ← hi.width]
      omega
    · rw [hy, hh, ← hi.height]
      omega
  · simp only [he]
    rw [give_back hi.inside htake]
    exact ⟨⟨hi.inside, hi.width, hi.height, hi.owed, hi.taken, hi.busy, hi.detached⟩, rfl⟩

/-- An acknowledgement is refused, or it ends the frame in flight. -/
theorem gpuAck_cases (s : GpuProxy) (proc : Option ℕ) (copyin : Bool) (sequence : ℕ) :
    (∃ rc, rc ≠ .ok ∧ gpuAck s proc copyin sequence = (s, rc)) ∨
    (s.gpu_damage.busy = true ∧ sequence = s.gpu_damage.pending ∧
      gpuAck s proc copyin sequence = ({ s with
        gpu_damage := { s.gpu_damage with busy := false }
        gpu_completed := s.gpu_completed + 1 }, .ok)) := by
  unfold gpuAck gpuDamageAck
  split
  · exact Or.inl ⟨.perm, nofun, rfl⟩
  split
  · exact Or.inl ⟨.inval, nofun, rfl⟩
  by_cases hstale : !s.gpu_damage.busy ∨ sequence ≠ s.gpu_damage.pending
  · simp only [if_pos hstale]
    exact Or.inl ⟨.inval, nofun, rfl⟩
  · simp only [if_neg hstale]
    obtain ⟨hbusy, hseq⟩ := not_or.mp hstale
    exact Or.inr ⟨by simpa using hbusy, not_not.mp hseq, trivial⟩

theorem GpuInv.ack (hi : GpuInv t) (died : Set (ℕ × ℕ) → Set (ℕ × ℕ)) (proc : Option ℕ)
    (copyin : Bool) (sequence : ℕ) : GpuInv (trackedStep died t (.ack proc copyin sequence)) := by
  rcases gpuAck_cases t.proxy proc copyin sequence with ⟨rc, hrc, he⟩ | ⟨-, -, he⟩
  · simp only [trackedStep, gpuStep, he, hrc, if_false]
    exact hi
  · simp only [trackedStep, gpuStep, he, if_true]
    constructor
    · exact hi.inside
    · exact hi.width
    · exact hi.height
    · intro p hp
      rcases hi.owed hp.1 with h | h
      · exact Or.inl h
      · exact absurd h hp.2
    · exact fun p hp => absurd hp (Set.notMem_empty p)
    · rfl
    · intro hn
      obtain ⟨hw, howed, -⟩ := hi.detached hn
      refine ⟨hw, ?_, rfl⟩
      simp only [howed, Set.empty_sdiff]

theorem GpuInv.ownerGone (hi : GpuInv t) (proc hw_device : Option ℕ) :
    GpuInv (trackedStep (fun _ => ∅) t (.ownerGone proc hw_device)) := by
  by_cases hother : proc ≠ t.proxy.gpu_owner ∨ hw_device ≠ t.proxy.gpu_hw_device
  · simp only [trackedStep, gpuStep, auGpuProxyOwnerGone, gone, if_pos hother,
      if_neg (not_not.mpr hother)]
    exact hi
  · simp only [trackedStep, gpuStep, auGpuProxyOwnerGone, gone, if_neg hother, if_pos hother]
    constructor
    · exact fun h => absurd h Bool.false_ne_true
    · rfl
    · rfl
    · exact fun p hp => absurd hp (Set.notMem_empty p)
    · exact fun p hp => absurd hp (Set.notMem_empty p)
    · rfl
    · exact fun _ => ⟨rfl, rfl, rfl⟩

theorem GpuInv.step (hi : GpuInv t) (op : GpuOp) :
    GpuInv (trackedStep (fun _ => ∅) t op) ∧ TakesRight t op := by
  cases op with
  | acquire proc req env => exact ⟨hi.acquire proc req env, trivial⟩
  | damage displayOwner copyin x y w h => exact ⟨hi.damage displayOwner copyin x y w h, trivial⟩
  | consoleDamage x y width height => exact ⟨hi.consoleDamage x y width height, trivial⟩
  | take proc env => exact hi.take _ proc env
  | ack proc copyin sequence => exact ⟨hi.ack _ proc copyin sequence, trivial⟩
  | ownerGone proc hw_device => exact ⟨hi.ownerGone proc hw_device, trivial⟩

theorem gpuInv_boot : GpuInv bootTracked where
  inside h := absurd h Bool.false_ne_true
  width := rfl
  height := rfl
  owed p hp := absurd hp (Set.notMem_empty p)
  taken p hp := absurd hp (Set.notMem_empty p)
  busy := rfl
  detached _ := ⟨rfl, rfl, rfl⟩

/-- In every run, what is owed to a display that has a server is pending or in flight, and each
frame is the only one in flight and lies inside the display. -/
theorem exec_gpuCoverage (ops : List GpuOp) :
    Covered (run (trackedStep fun _ => ∅) bootTracked ops) ∧
      Respects TakesRight (trackedStep fun _ => ∅) bootTracked ops := by
  constructor
  · have hinv := run_invariant (I := GpuInv) (fun _ op hi => (hi.step op).1) ops gpuInv_boot
    exact hinv.covered
  · have hall := @respects_mem _ _ (trackedStep fun _ => ∅) bootTracked ops
    exact hall.imp (I := GpuInv) (fun _ op hi _ => hi.step op) gpuInv_boot

/-- With the death of the server pending damage is dropped. -/
theorem not_exec_gpuCoverage :
    ¬ ∀ ops : List GpuOp, Covered (run (trackedStep id) bootTracked ops) := by
  intro h
  have hc := h [.acquire (some 1) ⟨1, 4, 3, [⟨4096, 48⟩]⟩
    ⟨true, true, true, some ⟨4, 3, 16, 48⟩, fun _ => true, some 7, true⟩,
    .damage true true 0 0 1 1, .ownerGone (some 1) (some 7)]
  have howed : ((0, 0) : ℕ × ℕ) ∈ (∅ ∪ rect 0 0 4 3) ∪ rect 0 0 1 1 := by
    right
    exact ⟨le_rfl, Nat.zero_lt_one, le_rfl, Nat.zero_lt_one⟩
  rcases hc (0, 0) howed with hp | ⟨f, hf, -⟩
  · exact Bool.false_ne_true hp.1
  · exact absurd hf nofun

end Xeneva.Gpu
