import Mathlib

/-!
# Runs of a deterministic machine

A machine is a step function `σ → α → σ`; the environment's choices are the
labels `α`, and a run is a list of labels. `Respects` says that every step of
a run meets a side condition in the state it is taken from, and `Respects.invariant`
turns a step lemma into a statement about every state such a run reaches.
-/

namespace Xeneva.Base

variable {σ α ε : Type*}

/-- The state a run ends in. -/
def run (step : σ → α → σ) (s : σ) (as : List α) : σ := as.foldl step s

@[simp] theorem run_nil (step : σ → α → σ) (s : σ) : run step s [] = s := rfl

@[simp] theorem run_cons (step : σ → α → σ) (s : σ) (a : α) (as : List α) :
    run step s (a :: as) = run step (step s a) as := rfl

theorem run_append (step : σ → α → σ) (s : σ) (as bs : List α) :
    run step s (as ++ bs) = run step (run step s as) bs := List.foldl_append

/-- Every step of the run meets `ok` in the state it is taken from. -/
def Respects (ok : σ → α → Prop) (step : σ → α → σ) : σ → List α → Prop
  | _, [] => True
  | s, a :: as => ok s a ∧ Respects ok step (step s a) as

@[simp] theorem respects_nil (ok : σ → α → Prop) (step : σ → α → σ) (s : σ) :
    Respects ok step s [] := trivial

@[simp] theorem respects_cons (ok : σ → α → Prop) (step : σ → α → σ) (s : σ) (a : α)
    (as : List α) : Respects ok step s (a :: as) ↔ ok s a ∧ Respects ok step (step s a) as :=
  Iff.rfl

instance Respects.decidable (ok : σ → α → Prop) [∀ s a, Decidable (ok s a)] (step : σ → α → σ) :
    ∀ s as, Decidable (Respects ok step s as)
  | _, [] => inferInstanceAs (Decidable True)
  | s, a :: as => @instDecidableAnd _ _ _ (Respects.decidable ok step (step s a) as)

theorem respects_append {ok : σ → α → Prop} {step : σ → α → σ} {s : σ} {as bs : List α} :
    Respects ok step s (as ++ bs) ↔
      Respects ok step s as ∧ Respects ok step (run step s as) bs := by
  induction as generalizing s with
  | nil => simp
  | cons a as ih => simp [ih, and_assoc]

/-- The run rule: an invariant that the admissible steps preserve holds in every
state an admissible run reaches. -/
theorem Respects.invariant {ok : σ → α → Prop} {step : σ → α → σ} {I : σ → Prop}
    (hstep : ∀ s a, I s → ok s a → I (step s a)) {s : σ} {as : List α}
    (hs : I s) (h : Respects ok step s as) : I (run step s as) := by
  induction as generalizing s with
  | nil => exact hs
  | cons a as ih => exact ih (hstep s a hs h.1) h.2

/-- Every step of an admissible run does what the invariant and its condition imply. -/
theorem Respects.imp {ok ok' : σ → α → Prop} {step : σ → α → σ} {I : σ → Prop}
    (hstep : ∀ s a, I s → ok s a → I (step s a) ∧ ok' s a) {s : σ} {as : List α}
    (hs : I s) (h : Respects ok step s as) : Respects ok' step s as := by
  induction as generalizing s with
  | nil => trivial
  | cons a as ih =>
    obtain ⟨hi, ha⟩ := hstep s a hs h.1
    exact ⟨ha, ih hi h.2⟩

/-- The run rule without a side condition. -/
theorem run_invariant {step : σ → α → σ} {I : σ → Prop}
    (hstep : ∀ s a, I s → I (step s a)) {s : σ} (as : List α) (hs : I s) :
    I (run step s as) := by
  induction as generalizing s with
  | nil => exact hs
  | cons a as ih => exact ih (hstep s a hs)

theorem Respects.mono {ok ok' : σ → α → Prop} {step : σ → α → σ} {s : σ} {as : List α}
    (hok : ∀ s a, ok s a → ok' s a) (h : Respects ok step s as) : Respects ok' step s as := by
  induction as generalizing s with
  | nil => trivial
  | cons a as ih => exact ⟨hok s a h.1, ih h.2⟩

/-- The steps of a run are those it is made of. -/
theorem respects_mem {step : σ → α → σ} (s : σ) (as : List α) :
    Respects (fun _ a => a ∈ as) step s as := by
  have h : ∀ bs : List α, (∀ a ∈ bs, a ∈ as) → ∀ s, Respects (fun _ a => a ∈ as) step s bs := by
    intro bs
    induction bs with
    | nil => exact fun _ _ => trivial
    | cons b bs ih =>
      intro hb s
      exact ⟨hb b List.mem_cons_self, ih (fun a ha => hb a (List.mem_cons_of_mem b ha)) (step s b)⟩
  exact h as (fun _ ha => ha) s

theorem Respects.and {ok ok' : σ → α → Prop} {step : σ → α → σ} {s : σ} {as : List α}
    (h : Respects ok step s as) (h' : Respects ok' step s as) :
    Respects (fun s a => ok s a ∧ ok' s a) step s as := by
  induction as generalizing s with
  | nil => trivial
  | cons a as ih => exact ⟨⟨h.1, h'.1⟩, ih h.2 h'.2⟩

/-- A counter that goes from `x` to `y` counts when something that held `before` ends. -/
def AtLast (before after : Prop) (x y : ℕ) : Prop :=
  (before ∧ ¬after → y = x + 1) ∧ (¬(before ∧ ¬after) → y = x)

theorem AtLast.kept {before after : Prop} (h : before → after) (x : ℕ) :
    AtLast before after x x :=
  ⟨fun hc => absurd (h hc.1) hc.2, fun _ => rfl⟩

theorem AtLast.ended {before after : Prop} (h : before) (h' : ¬after) (x : ℕ) :
    AtLast before after x (x + 1) :=
  ⟨fun _ => rfl, fun hc => absurd ⟨h, h'⟩ hc⟩

/-- What never holds again once it has ended is counted once. -/
theorem AtLast.trans {a b c : Prop} {x y z : ℕ} (h : AtLast a b x y) (h' : AtLast b c y z)
    (hab : b → a) (hbc : c → b) : AtLast a c x z := by
  by_cases ha : a
  · by_cases hb : b
    · have hy : y = x := h.2 fun hc => hc.2 hb
      constructor
      · intro hc
        rw [h'.1 ⟨hb, hc.2⟩, hy]
      · intro hc
        rw [h'.2 fun hd => hc ⟨ha, hd.2⟩, hy]
    · have hy : y = x + 1 := h.1 ⟨ha, hb⟩
      have hc : ¬c := fun hc => hb (hbc hc)
      constructor
      · intro _
        rw [h'.2 fun hd => hb hd.1, hy]
      · intro hd
        exact absurd ⟨ha, hc⟩ hd
  · have hb : ¬b := fun hb => ha (hab hb)
    constructor
    · intro hc
      exact absurd hc.1 ha
    · intro _
      rw [h'.2 fun hd => hb hd.1, h.2 fun hd => ha hd.1]

/-- What one step of a machine with outputs did: the state it was taken from, its label
and its output. -/
structure Event (σ α ε : Type*) where
  pre : σ
  act : α
  out : ε

/-- A machine with outputs that keeps its whole history, the latest event first. -/
def recorded (step : σ → α → σ × ε) (r : σ × List (Event σ α ε)) (a : α) :
    σ × List (Event σ α ε) :=
  ((step r.1 a).1, ⟨r.1, a, (step r.1 a).2⟩ :: r.2)

@[simp] theorem recorded_fst (step : σ → α → σ × ε) (r : σ × List (Event σ α ε)) (a : α) :
    (recorded step r a).1 = (step r.1 a).1 := rfl

@[simp] theorem recorded_snd (step : σ → α → σ × ε) (r : σ × List (Event σ α ε)) (a : α) :
    (recorded step r a).2 = ⟨r.1, a, (step r.1 a).2⟩ :: r.2 := rfl

end Xeneva.Base

/-!
# Refinement of machines with outputs

A machine answers every label. It refines another one where related states answer alike and
stay related.
-/

namespace Xeneva.Base

variable {σ τ α β ε : Type*}

/-- The answers of a run, in order. -/
def replies (step : σ → α → σ × ε) : σ → List α → List ε
  | _, [] => []
  | s, a :: as => (step s a).2 :: replies step (step s a).1 as

/-- The steps that meet `ok` answer as the other machine does, and lead to related states. -/
def Refines (R : σ → τ → Prop) (ok : σ → α → Prop) (step : σ → α → σ × ε)
    (spec : τ → α → τ × ε) : Prop :=
  ∀ s t a, R s t → ok s a →
    (step s a).2 = (spec t a).2 ∧ R (step s a).1 (spec t a).1

/-- The run rule of refinement. -/
theorem Refines.run {R : σ → τ → Prop} {ok : σ → α → Prop} {step : σ → α → σ × ε}
    {spec : τ → α → τ × ε} (h : Refines R ok step spec) {s : σ} {t : τ} {as : List α}
    (hr : R s t) (hok : Respects ok (fun s a => (step s a).1) s as) :
    replies step s as = replies spec t as ∧
      R (run (fun s a => (step s a).1) s as) (run (fun t a => (spec t a).1) t as) := by
  induction as generalizing s t with
  | nil => exact ⟨rfl, hr⟩
  | cons a as ih =>
    obtain ⟨hout, hnext⟩ := h s t a hr hok.1
    obtain ⟨houts, hend⟩ := ih hnext hok.2
    refine ⟨?_, hend⟩
    unfold replies
    rw [hout, houts]

/-- The labels of a run, with what `f` adds to them in the state before the step. -/
def labels (step : σ → α → σ × ε) (f : σ → α → β) : σ → List α → List β
  | _, [] => []
  | s, a :: as => f s a :: labels step f (step s a).1 as

theorem labels_forall {step : σ → α → σ × ε} {f : σ → α → β} {P : β → Prop}
    (h : ∀ s a, P (f s a)) (s : σ) (as : List α) : ∀ b ∈ labels step f s as, P b := by
  induction as generalizing s with
  | nil => exact fun b hb => absurd hb List.not_mem_nil
  | cons a as ih =>
    intro b hb
    rcases List.mem_cons.mp hb with hb | hb
    · rw [hb]
      exact h s a
    · exact ih _ b hb

theorem labels_map {step : σ → α → σ × ε} {f : σ → α → β} {g : β → α} (h : ∀ s a, g (f s a) = a)
    (s : σ) (as : List α) : (labels step f s as).map g = as := by
  induction as generalizing s with
  | nil => rfl
  | cons a as ih =>
    unfold labels
    rw [List.map_cons, h, ih]

/-- Refinement of a machine whose labels say more. -/
def RefinesVia (R : σ → τ → Prop) (f : σ → α → β) (step : σ → α → σ × ε)
    (spec : τ → β → τ × ε) : Prop :=
  ∀ s t a, R s t → (step s a).2 = (spec t (f s a)).2 ∧ R (step s a).1 (spec t (f s a)).1

theorem RefinesVia.run {R : σ → τ → Prop} {f : σ → α → β} {step : σ → α → σ × ε}
    {spec : τ → β → τ × ε} (h : RefinesVia R f step spec) {s : σ} {t : τ} (hr : R s t)
    (as : List α) :
    replies step s as = replies spec t (labels step f s as) ∧
      R (run (fun s a => (step s a).1) s as)
        (run (fun t b => (spec t b).1) t (labels step f s as)) := by
  induction as generalizing s t with
  | nil => exact ⟨rfl, hr⟩
  | cons a as ih =>
    obtain ⟨hout, hnext⟩ := h s t a hr
    obtain ⟨houts, hend⟩ := ih hnext
    refine ⟨?_, hend⟩
    unfold labels
    unfold replies
    rw [hout, houts]

end Xeneva.Base
