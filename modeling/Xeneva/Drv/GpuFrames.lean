import Xeneva.Drv.GpuCoverage

/-!
# Frame numbers

A late acknowledgement of an earlier frame must not end the frame in flight, across any number of
servers.
-/

namespace Xeneva.Gpu

open Xeneva.Base

/-- The proxy and the frames it has handed out, the latest first. -/
structure Numbered where
  proxy : GpuProxy
  handed : List GpuSrvFrame

def numberedStep (t : Numbered) (op : GpuOp) : Numbered where
  proxy := gpuStep t.proxy op
  handed := match op with
    | .take proc env => match (gpuTake t.proxy proc env).2 with
      | .ok f => f :: t.handed
      | .error _ => t.handed
    | _ => t.handed

/-- No number is given twice, and an acknowledgement of any frame but the latest is refused. -/
def NumbersFresh (t : Numbered) : Prop :=
  (t.handed.map GpuSrvFrame.sequence).Nodup ∧
    ∀ f ∈ t.handed.tail, gpuDamageAck t.proxy.gpu_damage f.sequence = none

/-- The counter does not wrap, and the server does not end after a number was drawn. -/
def KeepsNumbers (t : Numbered) : GpuOp → Prop
  | .take _ _ => t.proxy.gpu_damage.next + 1 < 2 ^ 64
  | .ownerGone proc hw_device => gone t.proxy proc hw_device → t.proxy.gpu_damage.next = 0
  | _ => True

instance (t : Numbered) : ∀ op, Decidable (KeepsNumbers t op)
  | .take _ _ => inferInstanceAs (Decidable (_ < _))
  | .ownerGone _ _ => inferInstanceAs (Decidable (_ → _))
  | .acquire _ _ _ => inferInstanceAs (Decidable True)
  | .damage _ _ _ _ _ _ => inferInstanceAs (Decidable True)
  | .consoleDamage _ _ _ _ => inferInstanceAs (Decidable True)
  | .ack _ _ _ => inferInstanceAs (Decidable True)

/-! ## The invariant -/

/-- The numbers fall from the latest frame on, none is above the counter, and what is in flight is
the latest frame. -/
structure NumbersInv (t : Numbered) : Prop where
  falling : (t.handed.map GpuSrvFrame.sequence).Pairwise (· > ·)
  counted : ∀ f ∈ t.handed, 0 < f.sequence ∧ f.sequence ≤ t.proxy.gpu_damage.next
  latest : t.proxy.gpu_damage.busy → ∃ f rest, t.handed = f :: rest ∧
    f.sequence = t.proxy.gpu_damage.pending
  detached : t.proxy.gpu_attached = false → t.proxy.gpu_damage.next = 0
  inside : Inside t.proxy.gpu_damage

variable {t : Numbered}

theorem NumbersInv.fresh (hi : NumbersInv t) : NumbersFresh t := by
  constructor
  · exact hi.falling.imp fun h => Nat.ne_of_gt h
  · intro f hf
    apply if_pos
    by_cases hbusy : t.proxy.gpu_damage.busy
    · right
      obtain ⟨g, rest, hhanded, hpending⟩ := hi.latest hbusy
      have hfall := hi.falling
      rw [hhanded, List.map_cons] at hfall
      rw [hhanded, List.tail_cons] at hf
      rw [← hpending]
      exact Nat.ne_of_lt ((List.pairwise_cons.mp hfall).1 _ (List.mem_map_of_mem hf))
    · left
      simpa using hbusy

/-- A step that hands nothing out and keeps the counter and the frame in flight. -/
theorem NumbersInv.keep (hi : NumbersInv t) {s : GpuProxy}
    (hnext : s.gpu_damage.next = t.proxy.gpu_damage.next)
    (hpending : s.gpu_damage.pending = t.proxy.gpu_damage.pending)
    (hbusy : s.gpu_damage.busy → t.proxy.gpu_damage.busy)
    (hatt : s.gpu_attached = t.proxy.gpu_attached) (hin : Inside s.gpu_damage) :
    NumbersInv ⟨s, t.handed⟩ where
  falling := hi.falling
  counted f hf := hnext ▸ hi.counted f hf
  latest hb := hpending ▸ hi.latest (hbusy hb)
  detached hn := hnext.trans (hi.detached (hatt.symm.trans hn))
  inside := hin

/-- An empty counter has given no number. -/
theorem NumbersInv.none_handed (hi : NumbersInv t) (h0 : t.proxy.gpu_damage.next = 0) :
    t.handed = [] := by
  apply List.eq_nil_iff_forall_not_mem.mpr
  intro f hf
  have hc := hi.counted f hf
  rw [h0] at hc
  omega

/-- A new server before the first number. -/
theorem NumbersInv.restart (hi : NumbersInv t) (h0 : t.proxy.gpu_damage.next = 0) {s : GpuProxy}
    (hnext : s.gpu_damage.next = 0) (hbusy : s.gpu_damage.busy = false)
    (hin : Inside s.gpu_damage) : NumbersInv ⟨s, t.handed⟩ := by
  have hnil := hi.none_handed h0
  constructor
  · exact hi.falling
  · intro f hf
    rw [hnil] at hf
    exact absurd hf List.not_mem_nil
  · intro hb
    rw [hbusy] at hb
    exact absurd hb Bool.false_ne_true
  · exact fun _ => hnext
  · exact hin

theorem gpuDamageTake_sequence {d d' : GpuDamage} {f : GpuSrvFrame} (hwrap : d.next + 1 < 2 ^ 64)
    (h : gpuDamageTake d = .ok (d', f)) : f.sequence = d.next + 1 := by
  unfold gpuDamageTake at h
  obtain ⟨-, h⟩ := guard_ok h
  obtain ⟨-, h⟩ := guard_ok h
  obtain ⟨-, hf⟩ := Prod.mk.inj (Except.ok.inj h)
  rw [← hf, Nat.mod_eq_of_lt hwrap]
  rfl

theorem NumbersInv.take (hi : NumbersInv t) (proc : Option ℕ) (env : TakeEnv)
    (hwrap : t.proxy.gpu_damage.next + 1 < 2 ^ 64) :
    NumbersInv (numberedStep t (.take proc env)) := by
  unfold numberedStep gpuStep
  rcases gpuTake_cases t.proxy proc env with ⟨rc, he⟩ | ⟨d, f, hatt, htake, he⟩ |
    ⟨d, f, rc, hatt, htake, he⟩
  · simp only [he]
    exact hi
  · have hseq := gpuDamageTake_sequence hwrap htake
    obtain ⟨-, -, hd, -⟩ := gpuDamageTake_ok htake
    simp only [he]
    constructor
    · apply List.pairwise_cons.mpr
      refine ⟨fun q hq => ?_, hi.falling⟩
      obtain ⟨g, hg, rfl⟩ := List.mem_map.mp hq
      have hc := (hi.counted g hg).2
      omega
    · intro g hg
      rw [hd]
      rcases List.mem_cons.mp hg with rfl | hg
      · exact ⟨by omega, le_rfl⟩
      · have hc := hi.counted g hg
        exact ⟨hc.1, by simp only; omega⟩
    · intro _
      rw [hd]
      exact ⟨f, t.handed, rfl, rfl⟩
    · intro hn
      rw [hatt] at hn
      exact absurd hn.symm Bool.false_ne_true
    · rw [hd]
      exact fun h => absurd h Bool.false_ne_true
  · have hseq := gpuDamageTake_sequence hwrap htake
    obtain ⟨hbusy, -⟩ := gpuDamageTake_ok htake
    simp only [he]
    rw [give_back hi.inside htake]
    constructor
    · exact hi.falling
    · intro g hg
      have hc := hi.counted g hg
      exact ⟨hc.1, by simp only; omega⟩
    · intro hb
      have hb' : t.proxy.gpu_damage.busy = true := hb
      rw [hbusy] at hb'
      exact absurd hb' Bool.false_ne_true
    · intro hn
      rw [hatt] at hn
      exact absurd hn.symm Bool.false_ne_true
    · exact hi.inside

/-! ## Runs -/

theorem NumbersInv.acquire (hi : NumbersInv t) (proc : Option ℕ) (req : GpuSrvAcquire)
    (env : AcquireEnv) : NumbersInv ⟨(gpuAcquire t.proxy proc req env).1, t.handed⟩ := by
  cases hcheck : gpuAcquireCheck t.proxy req env with
  | error rc =>
    have hs : (gpuAcquire t.proxy proc req env).1 = t.proxy := by
      simp only [gpuAcquire, hcheck]
    rw [hs]
    exact hi
  | ok total =>
    obtain ⟨hatt, hw, hh⟩ := gpuAcquireCheck_ok hcheck
    have hd : (gpuAcquire t.proxy proc req env).1.gpu_damage =
        gpuDamageReset { width := req.width, height := req.height } := by
      simp only [gpuAcquire, hcheck]
    have hsome : (gpuDamageAdd { width := req.width, height := req.height } 0 0 req.width
        req.height).isSome :=
      gpuDamageAdd_isSome hw hh (Nat.le_of_eq (Nat.zero_add _)) (Nat.le_of_eq (Nat.zero_add _))
    obtain ⟨d, hadd⟩ := Option.isSome_iff_exists.mp hsome
    have hg := gpuDamageAdd_grows hadd
    have hreset : gpuDamageReset { width := req.width, height := req.height } = d := by
      rw [gpuDamageReset]
      exact (congrArg (Option.getD · _) hadd).trans rfl
    rw [hreset] at hd
    apply hi.restart (hi.detached hatt)
    · rw [hd]
      exact hg.next
    · rw [hd]
      exact hg.busy
    · rw [hd]
      exact hg.inside fun h => absurd h Bool.false_ne_true

/-- An addition to the damage that is accepted. -/
theorem NumbersInv.grow (hi : NumbersInv t) {x y w h : ℕ} {d : GpuDamage}
    (hadd : gpuDamageAdd t.proxy.gpu_damage x y w h = some d) :
    NumbersInv ⟨{ t.proxy with gpu_damage := d }, t.handed⟩ := by
  have hg := gpuDamageAdd_grows hadd
  exact hi.keep hg.next hg.pending (fun hb => hg.busy ▸ hb) rfl (hg.inside hi.inside)

theorem NumbersInv.damage (hi : NumbersInv t) (displayOwner copyin : Bool) (x y w h : ℕ) :
    NumbersInv ⟨(gpuDamageCall t.proxy displayOwner copyin x y w h).1, t.handed⟩ := by
  rcases gpuDamageCall_cases t.proxy displayOwner copyin x y w h with ⟨rc, -, he⟩ | ⟨d, hadd, he⟩
  · rw [he]
    exact hi
  · rw [he]
    exact hi.grow hadd

theorem NumbersInv.consoleDamage (hi : NumbersInv t) (x y width height : ℤ) :
    NumbersInv ⟨auGpuProxyDamage t.proxy x y width height, t.handed⟩ := by
  unfold auGpuProxyDamage
  split
  · cases hadd : gpuDamageAdd t.proxy.gpu_damage x.toNat y.toNat width.toNat height.toNat with
    | none => exact hi
    | some d => exact hi.grow hadd
  · exact hi

theorem NumbersInv.ack (hi : NumbersInv t) (proc : Option ℕ) (copyin : Bool) (sequence : ℕ) :
    NumbersInv ⟨(gpuAck t.proxy proc copyin sequence).1, t.handed⟩ := by
  rcases gpuAck_cases t.proxy proc copyin sequence with ⟨rc, -, he⟩ | ⟨-, -, he⟩
  · rw [he]
    exact hi
  · rw [he]
    exact hi.keep rfl rfl (fun hb => absurd hb Bool.false_ne_true) rfl hi.inside

theorem NumbersInv.ownerGone (hi : NumbersInv t) {proc hw_device : Option ℕ}
    (h : KeepsNumbers t (.ownerGone proc hw_device)) :
    NumbersInv ⟨auGpuProxyOwnerGone t.proxy proc hw_device, t.handed⟩ := by
  unfold auGpuProxyOwnerGone
  split
  · exact hi
  case isFalse hgone =>
    exact hi.restart (h hgone) rfl rfl fun hd => absurd hd Bool.false_ne_true

theorem NumbersInv.step (hi : NumbersInv t) {op : GpuOp} (h : KeepsNumbers t op) :
    NumbersInv (numberedStep t op) := by
  cases op with
  | acquire proc req env => exact hi.acquire proc req env
  | damage displayOwner copyin x y w height => exact hi.damage displayOwner copyin x y w height
  | consoleDamage x y width height => exact hi.consoleDamage x y width height
  | take proc env => exact hi.take proc env h
  | ack proc copyin sequence => exact hi.ack proc copyin sequence
  | ownerGone proc hw_device => exact hi.ownerGone h

theorem numbersInv_boot : NumbersInv ⟨bootGpu, []⟩ where
  falling := List.Pairwise.nil
  counted _ hf := absurd hf List.not_mem_nil
  latest hb := absurd hb Bool.false_ne_true
  detached _ := rfl
  inside hd := absurd hd Bool.false_ne_true

/-- In every run in which no server ends after a frame number was drawn, and the counter does not
wrap, no number is given twice, and late acknowledgements are refused. -/
theorem exec_gpuFrames (ops : List GpuOp)
    (h : Respects KeepsNumbers numberedStep ⟨bootGpu, []⟩ ops) :
    NumbersFresh (run numberedStep ⟨bootGpu, []⟩ ops) := by
  have hinv := h.invariant (I := NumbersInv) (fun _ _ hi ho => hi.step ho) numbersInv_boot
  exact hinv.fresh

def oneServer : GpuOp := .acquire (some 1) ⟨1, 4, 3, [⟨4096, 48⟩]⟩
  ⟨true, true, true, some ⟨4, 3, 16, 48⟩, fun _ => true, some 7, true⟩

def oneTake : GpuOp := .take (some 1) ⟨some ⟨4, 3, 16, 48⟩, true, true⟩

/-- A server that ends at once, and one that takes two frames. -/
theorem exec_gpuFrames_two : NumbersFresh (run numberedStep ⟨bootGpu, []⟩ [oneServer,
    .ownerGone (some 1) (some 7), oneServer, oneTake, .ack (some 1) true 1,
    .damage true true 1 1 2 2, oneTake]) := by
  apply exec_gpuFrames
  decide

/-- The first frame of each of two servers has number one. -/
theorem not_exec_gpuFrames :
    ¬ ∀ ops : List GpuOp, NumbersFresh (run numberedStep ⟨bootGpu, []⟩ ops) := by
  intro h
  have hr := (h [oneServer, oneTake, .ownerGone (some 1) (some 7), oneServer, oneTake]).1
  revert hr
  decide

end Xeneva.Gpu
