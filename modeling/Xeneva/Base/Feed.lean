import Mathlib

/-!
# Machines that report as they read

A machine reads one symbol at a time and reports at some of them. A call reads a chunk up to the
first report and forgets the rest of it; calls on all chunks of a stream do the same as reading
the stream when no report comes before the end of its chunk.
-/

namespace Xeneva.Base.Feed

variable {σ β ω : Type*} (step : σ → β → σ × Option ω)

/-- All symbols are read. -/
def feed : σ → List β → σ × List ω
  | s, [] => (s, [])
  | s, b :: bs => ((feed (step s b).1 bs).1, (step s b).2.toList ++ (feed (step s b).1 bs).2)

/-- The symbols are read up to the first report. -/
def call : σ → List β → σ × Option ω
  | s, [] => (s, none)
  | s, b :: bs => match step s b with
    | (s', some o) => (s', some o)
    | (s', none) => call s' bs

/-- A call for each chunk. -/
def calls : σ → List (List β) → σ × List ω
  | s, [] => (s, [])
  | s, c :: cs => ((calls (call step s c).1 cs).1,
      (call step s c).2.toList ++ (calls (call step s c).1 cs).2)

/-- No report comes before the end of the chunk. -/
def Quiet (s : σ) (c : List β) : Prop := ∀ x y, c = x ++ y → y ≠ [] → (feed step s x).2 = []

variable {step} {s : σ} {c : List β} {cs : List (List β)}

theorem feed_append (s : σ) (x y : List β) : feed step s (x ++ y) =
    ((feed step (feed step s x).1 y).1, (feed step s x).2 ++ (feed step (feed step s x).1 y).2) := by
  induction x generalizing s with
  | nil => simp [feed]
  | cons b x ih => simp [feed, ih]

theorem quiet_cons {b : β} (h : Quiet step s (b :: c)) (hc : c ≠ []) :
    (step s b).2 = none ∧ Quiet step (step s b).1 c := by
  have hb : (step s b).2 = none := by
    have h1 := h [b] c rfl hc
    simpa [feed] using h1
  refine ⟨hb, ?_⟩
  intro x y hxy hy
  have hx := h (b :: x) y (by rw [hxy, List.cons_append]) hy
  simpa [feed, hb] using hx

/-- A call on a chunk without a report before its end reads it all. -/
theorem call_of_quiet (h : Quiet step s c) :
    (call step s c).1 = (feed step s c).1 ∧ (call step s c).2.toList = (feed step s c).2 := by
  induction c generalizing s with
  | nil => exact ⟨rfl, rfl⟩
  | cons b c ih =>
    by_cases hc : c = []
    · subst hc
      rcases hs : step s b with ⟨s', _ | o⟩ <;> simp [call, feed, hs]
    · obtain ⟨hb, hq⟩ := quiet_cons h hc
      have hs : step s b = ((step s b).1, none) := Prod.ext rfl hb
      obtain ⟨h1, h2⟩ := ih hq
      rw [call, hs]
      simp [feed, hb, h1, h2]

/-- So do calls on chunks that are all such. -/
theorem calls_of_quiet (h : ∀ pre c post, cs = pre ++ c :: post →
    Quiet step (feed step s pre.flatten).1 c) :
    calls step s cs = feed step s cs.flatten := by
  induction cs generalizing s with
  | nil => rfl
  | cons c cs ih =>
    have hc : Quiet step s c := h [] c cs rfl
    obtain ⟨h1, h2⟩ := call_of_quiet hc
    rw [calls, List.flatten_cons, feed_append, h1, h2]
    have hcs : calls step (feed step s c).1 cs = feed step (feed step s c).1 cs.flatten := by
      apply ih
      intro pre d post hd
      have hq := h (c :: pre) d post (by rw [hd, List.cons_append])
      rw [List.flatten_cons, feed_append] at hq
      exact hq
    rw [hcs]

/-- What each step keeps and what it says of its report holds for calls on any chunks. -/
theorem calls_invariant {I : σ → Prop} {P : ω → Prop}
    (hstep : ∀ s b, I s → I (step s b).1 ∧ ∀ o ∈ (step s b).2, P o) (cs : List (List β)) (hs : I s) :
    I (calls step s cs).1 ∧ ∀ o ∈ (calls step s cs).2, P o := by
  have hcall : ∀ (c : List β) s, I s → I (call step s c).1 ∧ ∀ o ∈ (call step s c).2, P o := by
    intro c
    induction c with
    | nil => exact fun s hs => ⟨hs, by simp [call]⟩
    | cons b c ih =>
      intro s hs
      have hb := hstep s b hs
      rcases he : step s b with ⟨s', _ | o⟩
      · rw [call, he]
        rw [he] at hb
        exact ih s' hb.1
      · rw [call, he]
        rw [he] at hb
        exact hb
  induction cs generalizing s with
  | nil => exact ⟨hs, by simp [calls]⟩
  | cons c cs ih =>
    obtain ⟨h1, h2⟩ := hcall c s hs
    obtain ⟨h3, h4⟩ := ih h1
    refine ⟨h3, ?_⟩
    intro o ho
    apply (List.mem_append.mp ho).elim _ (h4 o)
    intro ho
    exact h2 o (Option.mem_toList.mp ho)

section
variable (pending : σ → ℕ) (weight : ω → ℕ)
  (hstep : ∀ s b, pending (step s b).1 + ((step s b).2.toList.map weight).sum ≤ pending s + 1)
include hstep

/-- What is reported was read; a call that stops before the end of its chunk lost something. -/
theorem call_weight (s : σ) (c : List β) :
    pending (call step s c).1 + ((call step s c).2.toList.map weight).sum ≤ pending s + c.length ∧
      (pending s + c.length ≤
        pending (call step s c).1 + ((call step s c).2.toList.map weight).sum →
        Quiet step s c) := by
  induction c generalizing s with
  | nil =>
    refine ⟨by simp [call], ?_⟩
    intro _ x y hxy hy
    exact absurd (List.append_eq_nil_iff.mp hxy.symm).2 hy
  | cons b c ih =>
    have hb := hstep s b
    rcases hs : step s b with ⟨s', _ | o⟩
    · rw [hs] at hb
      simp only [Option.toList_none, List.map_nil, List.sum_nil, Nat.add_zero] at hb
      obtain ⟨h1, h2⟩ := ih s'
      have hcall : call step s (b :: c) = call step s' c := by rw [call, hs]
      rw [hcall, List.length_cons]
      refine ⟨by omega, ?_⟩
      intro hw x y hxy hy
      have hq := h2 (by omega)
      cases x with
      | nil => rfl
      | cons b' x =>
        obtain ⟨rfl, hc⟩ := List.cons.inj hxy
        simpa [feed, hs] using hq x y hc hy
    · rw [hs] at hb
      have hcall : call step s (b :: c) = (s', some o) := by rw [call, hs]
      rw [hcall, List.length_cons]
      refine ⟨by omega, ?_⟩
      intro hw x y hxy hy
      -- nothing is left after the report
      have hc : c = [] := List.length_eq_zero_iff.mp (by omega)
      cases x with
      | nil => rfl
      | cons b' x =>
        obtain ⟨_, hxy⟩ := List.cons.inj hxy
        rw [hc] at hxy
        exact absurd (List.append_eq_nil_iff.mp hxy.symm).2 hy

theorem calls_weight (s : σ) (cs : List (List β)) :
    pending (calls step s cs).1 + ((calls step s cs).2.map weight).sum ≤
      pending s + cs.flatten.length := by
  induction cs generalizing s with
  | nil => simp [calls]
  | cons c cs ih =>
    have h1 := (call_weight pending weight hstep s c).1
    have h2 := ih (call step s c).1
    rw [calls, List.flatten_cons, List.length_append, List.map_append, List.sum_append]
    dsimp only
    omega

/-- When the reports account for every symbol, no call has lost any. -/
theorem quiet_of_weight (cs : List (List β)) (s : σ)
    (hw : pending s + cs.flatten.length ≤
      pending (calls step s cs).1 + ((calls step s cs).2.map weight).sum) :
    ∀ pre c post, cs = pre ++ c :: post → Quiet step (feed step s pre.flatten).1 c := by
  induction cs generalizing s with
  | nil => exact fun pre c post h => absurd h (by simp)
  | cons c cs ih =>
    have h1 := call_weight pending weight hstep s c
    have h2 := calls_weight pending weight hstep (call step s c).1 cs
    rw [calls, List.flatten_cons, List.length_append, List.map_append, List.sum_append] at hw
    dsimp only at hw
    have hq : Quiet step s c := h1.2 (by omega)
    intro pre d post hd
    cases pre with
    | nil =>
      obtain ⟨rfl, _⟩ := List.cons.inj hd
      exact hq
    | cons c' pre =>
      obtain ⟨rfl, hcs⟩ := List.cons.inj hd
      have h3 := h1.1
      have hr := ih (call step s c).1 (by omega) pre d post hcs
      rw [(call_of_quiet hq).1] at hr
      rw [List.flatten_cons, feed_append]
      exact hr

end

end Xeneva.Base.Feed
