import Xeneva.Hal.SchedLists

/-!
# Which thread comes next

The ready list is read as it stands: any states, any mix of classes. Only the thread that runs is
restricted, since a thread that has just left the ready list still leads the walk into the list
that it went to.
-/

namespace Xeneva.Sched
open Base

variable {st : State} {m : Queue → List ℕ} {q : Queue} {t x c start n : ℕ} {l : List ℕ}

/-- A thread other than the idle one that may run. -/
def mayRun (st : State) (t : ℕ) : Bool := t ≠ st.idle_thr && runnable st t

/-- A thread of the real-time class that may run. -/
def edfMayRun (st : State) (t : ℕ) : Bool := mayRun st t && (st.thr t).edf_enabled

/-- The order of the real-time class: by deadline, and by number where deadlines are equal. -/
def NoLater (st : State) (t x : ℕ) : Prop :=
  (st.thr t).edf_deadline_us < (st.thr x).edf_deadline_us ∨
    (st.thr t).edf_deadline_us = (st.thr x).edf_deadline_us ∧
      (st.thr t).thread_id ≤ (st.thr x).thread_id

/-- A list from the place after a thread, round to the thread itself. -/
def roundRobin (l : List ℕ) (c : ℕ) : List ℕ := if c ∈ l then l.rotate (l.idxOf c + 1) else l

/-- The right choice from a ready list. -/
structure Chooses (st : State) (l : List ℕ) (t : ℕ) : Prop where
  edf : (∃ x ∈ l, edfMayRun st x) → t ∈ l ∧ edfMayRun st t ∧
    ∀ x ∈ l, edfMayRun st x → NoLater st t x
  ordinary : (∀ x ∈ l, ¬edfMayRun st x) →
    t = ((roundRobin l st.current_thread).find? (mayRun st)).getD st.idle_thr
  runs : (∃ x ∈ l, mayRun st x) → t ∈ l ∧ mayRun st t
  idle : t = st.idle_thr ↔ ∀ x ∈ l, ¬mayRun st x

/-- A thread that runs and is not ready any more has behind it, in the list it went to, only
threads that may not run, and few enough for the scan; without a list it has no successor. -/
structure Leaves (st : State) (m : Queue → List ℕ) : Prop where
  listed : ∀ q l₁ l₂, q ≠ .ready → m q = l₁ ++ st.current_thread :: l₂ →
    (∀ x ∈ l₂, runnable st x = false) ∧ l₂.length + (m .ready).length ≤ schedValidateSteps
  unlisted : (∀ q, st.current_thread ∉ m q) → st.current_thread = 0 ∨
    (st.thr st.current_thread).next = 0

/-! ## Earliest deadline first -/

theorem noLater_refl (st : State) (t : ℕ) : NoLater st t t := .inr ⟨rfl, Nat.le_refl _⟩

theorem NoLater.trans {y : ℕ} (h : NoLater st t x) (h' : NoLater st x y) : NoLater st t y := by
  rcases h with h | ⟨h, hid⟩
  · rcases h' with h' | ⟨h', -⟩
    · exact .inl (UInt64.lt_trans h h')
    · exact .inl (h' ▸ h)
  · rcases h' with h' | ⟨h', hid'⟩
    · exact .inl (h ▸ h')
    · exact .inr ⟨h.trans h', Nat.le_trans hid hid'⟩

theorem earlier_iff : earlier st t x = true ↔ ¬NoLater st x t := by
  unfold earlier NoLater
  rw [decide_eq_true_iff, not_or, not_and, UInt64.not_lt, Nat.not_le]
  constructor
  · rintro (h | ⟨h, hid⟩)
    · exact ⟨UInt64.le_of_lt h, fun he => absurd (he ▸ h) (UInt64.lt_irrefl _)⟩
    · exact ⟨h ▸ UInt64.le_refl _, fun _ => hid⟩
  · intro ⟨hle, hid⟩
    by_cases he : (st.thr x).edf_deadline_us = (st.thr t).edf_deadline_us
    · exact .inr ⟨he.symm, hid he⟩
    · exact .inl (UInt64.lt_of_le_of_ne hle (Ne.symm he))

theorem noLater_of_earlier (h : earlier st t x = true) : NoLater st t x := by
  unfold earlier at h
  rcases decide_eq_true_iff.mp h with h | ⟨h, hid⟩
  · exact .inl h
  · exact .inr ⟨h, Nat.le_of_lt hid⟩

/-- The thread that `AuEDFPickNext` has after a thread of the walk. -/
def pickBetter (st : State) (best : Option ℕ) (t : ℕ) : Option ℕ :=
  if edfMayRun st t then
    match best with
    | none => some t
    | some b => if earlier st t b then some t else some b
  else best

theorem auEDFPickNext_eq (st : State) :
    auEDFPickNext st = (st.members .ready).foldl (pickBetter st) none := by
  unfold auEDFPickNext
  congr 1
  funext best t
  unfold pickBetter edfMayRun mayRun
  by_cases hi : t = st.idle_thr
  · simp [hi]
  · by_cases he : (st.thr t).edf_enabled = true
    · by_cases hr : runnable st t = true
      · cases best with
        | none => simp [hi, he, hr]
        | some b => simp [hi, he, hr]
      · simp [hi, he, hr]
    · simp [hi, he]

/-- The best of a walk is in front of all that came before. -/
structure Best (st : State) (l : List ℕ) (best : Option ℕ) : Prop where
  none : best = none → ∀ x ∈ l, ¬edfMayRun st x
  some : ∀ t ∈ best, t ∈ l ∧ edfMayRun st t ∧ ∀ x ∈ l, edfMayRun st x → NoLater st t x

theorem Best.next {best : Option ℕ} (h : Best st l best) (t : ℕ) :
    Best st (l ++ [t]) (pickBetter st best t) := by
  have hall : ∀ {P : ℕ → Prop}, (∀ x ∈ l, P x) → P t → ∀ x ∈ l ++ [t], P x := by
    intro P hl ht x hx
    rcases List.mem_append.mp hx with hx | hx
    · exact hl x hx
    · exact List.mem_singleton.mp hx ▸ ht
  unfold pickBetter
  by_cases ht : edfMayRun st t = true
  · rw [if_pos ht]
    cases best with
    | none =>
      refine ⟨nofun, fun y hy => ?_⟩
      obtain rfl := Option.some.inj hy
      refine ⟨by simp, ht, hall (fun x hx hr => ?_) fun _ => noLater_refl st t⟩
      exact absurd hr (h.none rfl x hx)
    | some b =>
      obtain ⟨hb, hbr, hmin⟩ := h.some b rfl
      dsimp only
      by_cases he : earlier st t b = true
      · rw [if_pos he]
        refine ⟨nofun, fun y hy => ?_⟩
        obtain rfl := Option.some.inj hy
        refine ⟨by simp, ht, hall (fun x hx hr => ?_) fun _ => noLater_refl st t⟩
        exact (noLater_of_earlier he).trans (hmin x hx hr)
      · rw [if_neg he]
        refine ⟨nofun, fun y hy => ?_⟩
        obtain rfl := Option.some.inj hy
        refine ⟨by simp [hb], hbr, hall hmin fun _ => ?_⟩
        rw [earlier_iff, not_not] at he
        exact he
  · rw [if_neg ht]
    constructor
    · intro hn
      exact hall (h.none hn) ht
    · intro b hb
      obtain ⟨hm, hbr, hmin⟩ := h.some b hb
      exact ⟨by simp [hm], hbr, hall hmin fun hr => absurd hr ht⟩

theorem best_foldl (st : State) (l : List ℕ) : Best st l (l.foldl (pickBetter st) none) := by
  induction l using List.reverseRecOn with
  | nil => exact ⟨fun _ => nofun, nofun⟩
  | append_singleton l t ih =>
    rw [List.foldl_concat]
    exact ih.next t

/-! ## The walk -/

/-- The cursor goes along the list. -/
def Goes (st : State) (l : List ℕ) : Prop := l.IsChain fun a b => nextCursor st a = b

theorem nextCursor_of_next (h : (st.thr c).next ≠ 0) : nextCursor st c = (st.thr c).next := if_pos h

theorem Links.next_eq (h : Links st m) {l₁ l₂ : List ℕ} (hm : m q = l₁ ++ c :: l₂) :
    (st.thr c).next = l₂.headD 0 := by
  have hl := h.linked q
  rw [hm] at hl
  exact hl.at_split.1

/-- Within a list the cursor follows the links. -/
theorem Links.goes (h : Links st m) (q : Queue) : Goes st (m q) := by
  rw [Goes, List.isChain_iff_forall_rel_of_append_cons_cons]
  intro a b l₁ l₂ hm
  have hnext : (st.thr a).next = b := h.next_eq hm
  have hb : b ∈ m q := by
    rw [hm]
    simp
  rw [← hnext]
  apply nextCursor_of_next
  rw [hnext]
  exact h.ne_zero hb

/-- From the last thread of a list the cursor goes to the head of the ready list. -/
theorem Links.nextCursor_last (h : Links st m) {l₁ : List ℕ} (hm : m q = l₁ ++ [c]) :
    nextCursor st c = (m .ready).headD 0 := by
  have hnext : (st.thr c).next = 0 := h.next_eq hm
  rw [nextCursor, if_neg (not_not.mpr hnext)]
  exact (h.linked .ready).head_eq

/-- The rest of a list, and then a part of the ready list from its head. -/
theorem Links.goes_append (h : Links st m) {l₁ l₂ r₁ r₂ : List ℕ} (hm : m q = l₁ ++ l₂)
    (hr : m .ready = r₁ ++ r₂) : Goes st (l₂ ++ r₁) := by
  have hl := h.goes q
  have hready := h.goes .ready
  rw [Goes, hm, List.isChain_append] at hl
  rw [Goes, hr, List.isChain_append] at hready
  rw [Goes, List.isChain_append]
  refine ⟨hl.2.1, hready.1, fun a ha b hb => ?_⟩
  obtain ⟨l₃, hl₃⟩ : ∃ l₃, l₂ = l₃ ++ [a] := by
    obtain ⟨l₃, a', hl₃⟩ := List.eq_nil_or_concat l₂ |>.resolve_left (by rintro rfl; cases ha)
    rw [hl₃, List.concat_eq_append, List.getLast?_concat] at ha
    exact ⟨l₃, by rw [hl₃, List.concat_eq_append, Option.some.inj ha]⟩
  rw [h.nextCursor_last (by rw [hm, hl₃, ← List.append_assoc]), hr]
  cases r₁ with
  | nil => cases hb
  | cons d r₁ => exact Option.some.inj hb

/-- The walk finds the first thread on its way that may run. -/
theorem nextLoop_find (hgo : Goes st l) (h0 : ∀ x ∈ l, x ≠ 0) (hstart : start ∉ l.tail)
    (hn : l.length ≤ n) (ht : l.find? (mayRun st) = some t) :
    nextLoop st start n (l.headD 0) = some t := by
  induction l generalizing n with
  | nil => cases ht
  | cons c l ih =>
    obtain ⟨n, rfl⟩ : ∃ k, n = k + 1 := ⟨n - 1, by simp at hn; omega⟩
    unfold nextLoop
    rw [List.headD_cons, if_neg (h0 c List.mem_cons_self)]
    by_cases hc : mayRun st c = true
    · rw [List.find?_cons_of_pos hc] at ht
      rw [if_pos (by simpa [mayRun] using hc)]
      exact ht
    · rw [List.find?_cons_of_neg hc] at ht
      rw [if_neg (by simpa [mayRun] using hc)]
      cases l with
      | nil => cases ht
      | cons d l =>
        obtain ⟨hd, hgo⟩ := List.isChain_cons_cons.mp hgo
        have hne : d ≠ start := by
          intro he
          exact hstart (he ▸ List.mem_cons_self)
        rw [hd, if_neg hne]
        exact ih hgo (fun x hx => h0 x (List.mem_cons_of_mem c hx))
          (fun hm => hstart (List.mem_cons_of_mem d hm)) (by simpa using hn) ht

/-- Where no thread may run, the walk finds none. -/
theorem nextLoop_none {R : ℕ → Prop} (hR : ∀ x, R x → x ≠ 0 → R (nextCursor st x))
    (hno : ∀ x, R x → x ≠ 0 → ¬mayRun st x) (hc : R c) : nextLoop st start n c = none := by
  induction n generalizing c with
  | zero => rfl
  | succ n ih =>
    unfold nextLoop
    by_cases h0 : c = 0
    · rw [if_pos h0]
    rw [if_neg h0, if_neg (by simpa [mayRun] using hno c hc h0)]
    split_ifs
    · rfl
    · exact ih (hR c hc h0)

/-- The cursor stays in the ready list and in the rest of the list where it starts. -/
theorem Links.nextCursor_mem (h : Links st m) {l₁ l₂ : List ℕ} (hm : m q = l₁ ++ l₂)
    (hx : x ∈ l₂ ∨ x ∈ m .ready) :
    nextCursor st x = 0 ∨ nextCursor st x ∈ l₂ ∨ nextCursor st x ∈ m .ready := by
  by_cases hnext : (st.thr x).next = 0
  · rw [nextCursor, if_neg (not_not.mpr hnext), (h.linked .ready).head_eq]
    cases m .ready with
    | nil => exact .inl rfl
    | cons d l => exact .inr (.inr List.mem_cons_self)
  · rw [nextCursor_of_next hnext]
    rcases hx with hx | hx
    · obtain ⟨a, b, rfl⟩ := List.append_of_mem hx
      have hb : (st.thr x).next = b.headD 0 := h.next_eq (q := q) (by rw [hm, ← List.append_assoc])
      cases b with
      | nil => exact absurd hb hnext
      | cons d b =>
        right
        left
        rw [hb]
        simp
    · exact .inr (.inr ((h.neighbours hx).1.resolve_left hnext).1)

/-- The walk goes through the rest of a list and then through the ready list. -/
theorem Links.nextLoop_eq (h : Links st m) {u v w z : List ℕ} (hm : m q = u ++ v)
    (hr : m .ready = w ++ z) (hall : ∀ x ∈ m .ready, x ∈ v ++ w) (hnd : (v ++ w).Nodup)
    (hn : (v ++ w).length ≤ n) :
    nextLoop st ((v ++ w).headD 0) n ((v ++ w).headD 0) = (v ++ w).find? (mayRun st) := by
  have h0 : ∀ x ∈ v ++ w, x ≠ 0 := by
    intro x hx
    rcases List.mem_append.mp hx with hx | hx
    · exact h.ne_zero (q := q) (by rw [hm]; exact List.mem_append_right u hx)
    · exact h.ne_zero (q := .ready) (by rw [hr]; exact List.mem_append_left z hx)
  cases hf : (v ++ w).find? (mayRun st) with
  | some t =>
    apply nextLoop_find (h.goes_append hm hr) h0 _ hn hf
    cases hl : v ++ w with
    | nil => exact List.not_mem_nil
    | cons c l =>
      rw [hl] at hnd
      exact (List.nodup_cons.mp hnd).1
  | none =>
    have hnone := List.find?_eq_none.mp hf
    apply nextLoop_none (R := fun x => x = 0 ∨ x ∈ v ∨ x ∈ m .ready)
    · intro x hx hx0
      exact h.nextCursor_mem hm (hx.resolve_left hx0)
    · intro x hx hx0
      rcases hx.resolve_left hx0 with hx | hx
      · exact hnone x (List.mem_append_left w hx)
      · exact hnone x (hall x hx)
    · cases hl : v ++ w with
      | nil => exact .inl rfl
      | cons c l =>
        right
        have hc : c ∈ v ++ w := by
          rw [hl]
          exact List.mem_cons_self
        rcases List.mem_append.mp hc with hc | hc
        · exact .inl hc
        · exact .inr (by rw [hr]; exact List.mem_append_left z hc)

/-! ## The choice -/

theorem roundRobin_split {l₁ l₂ : List ℕ} (hc : c ∉ l₁) :
    roundRobin (l₁ ++ c :: l₂) c = l₂ ++ (l₁ ++ [c]) := by
  have hidx : (l₁ ++ c :: l₂).idxOf c + 1 = (l₁ ++ [c]).length := by
    rw [List.idxOf_append_of_notMem hc, List.idxOf_cons_self, List.length_append]
    rfl
  have hsplit : l₁ ++ c :: l₂ = (l₁ ++ [c]) ++ l₂ := by simp
  rw [roundRobin, if_pos (by simp), hidx, hsplit, List.rotate_append_length_eq]

theorem roundRobin_of_not_mem (hc : c ∉ l) : roundRobin l c = l := if_neg hc

theorem mem_roundRobin : x ∈ roundRobin l c ↔ x ∈ l := by
  unfold roundRobin
  split_ifs
  · exact List.mem_rotate
  · exact Iff.rfl

theorem nextStart_of_next (h0 : st.current_thread ≠ 0)
    (hn : (st.thr st.current_thread).next ≠ 0) :
    nextStart st = (st.thr st.current_thread).next := if_pos ⟨h0, hn⟩

/-- Without a successor the walk starts at the head of the ready list. -/
theorem Links.nextStart_head (h : Links st m)
    (hn : st.current_thread = 0 ∨ (st.thr st.current_thread).next = 0) :
    nextStart st = (m .ready).headD 0 := by
  rw [nextStart, if_neg, (h.linked .ready).head_eq]
  intro ⟨h0, hn'⟩
  exact hn.elim h0 hn'

/-- The walk starts behind the thread that runs and goes round the ready list. -/
theorem Links.nextLoop_roundRobin (h : Links st m) (hleaves : Leaves st m)
    (hlen : (m .ready).length ≤ schedValidateSteps) :
    nextLoop st (nextStart st) schedValidateSteps (nextStart st) =
      (roundRobin (m .ready) st.current_thread).find? (mayRun st) := by
  have hnd := h.nodup .ready
  -- from the head of the ready list
  have hhead : st.current_thread ∉ m .ready →
      (st.current_thread = 0 ∨ (st.thr st.current_thread).next = 0) →
      nextLoop st (nextStart st) schedValidateSteps (nextStart st) =
        (roundRobin (m .ready) st.current_thread).find? (mayRun st) := by
    intro hc hn
    have hloop := h.nextLoop_eq (q := .ready) (u := m .ready) (v := []) (w := m .ready)
      (z := []) (by simp) (by simp) (by simp) (by simpa using hnd) (by simpa using hlen)
    rw [roundRobin_of_not_mem hc, h.nextStart_head hn]
    exact hloop
  by_cases hlist : ∃ q, st.current_thread ∈ m q
  · obtain ⟨q, hq⟩ := hlist
    obtain ⟨l₁, l₂, hm⟩ := List.append_of_mem hq
    have hnext := h.next_eq hm
    have hm' : m q = (l₁ ++ [st.current_thread]) ++ l₂ := by rw [hm, List.append_assoc]; rfl
    by_cases hqr : q = .ready
    · subst hqr
      have hnd' := hnd
      rw [hm] at hnd'
      have hc : st.current_thread ∉ l₁ := fun hc =>
        (List.nodup_append.mp hnd').2.2 _ hc _ List.mem_cons_self rfl
      have hperm : (l₂ ++ (l₁ ++ [st.current_thread])).Perm (m .ready) := by
        rw [hm']
        exact List.perm_append_comm
      have hstart : nextStart st = (l₂ ++ (l₁ ++ [st.current_thread])).headD 0 := by
        cases l₂ with
        | nil => rw [h.nextStart_head (.inr hnext), hm]; simp
        | cons d l₂ =>
          have hd : d ≠ 0 := h.ne_zero (q := .ready) (by rw [hm]; simp)
          rw [nextStart_of_next (h.ne_zero hq) (by rw [hnext]; exact hd), hnext]
          rfl
      rw [hstart, h.nextLoop_eq hm' hm' (fun x hx => hperm.mem_iff.mpr hx) (hperm.nodup_iff.mpr hnd)
        (hperm.length_eq ▸ hlen), hm, roundRobin_split hc]
    · have hc : st.current_thread ∉ m .ready := fun hc => hqr (h.unique q .ready _ hq hc)
      by_cases hl : l₂ = []
      · exact hhead hc (.inr (by rw [hnext, hl]; rfl))
      · obtain ⟨hquiet, hbound⟩ := hleaves.listed q l₁ l₂ hqr hm
        have hdis : (l₂ ++ m .ready).Nodup := by
          have hndq := h.nodup q
          rw [hm'] at hndq
          refine List.nodup_append.mpr ⟨(List.nodup_append.mp hndq).2.1, hnd, ?_⟩
          rintro a ha b hb rfl
          exact hqr (h.unique q .ready a (by rw [hm']; exact List.mem_append_right _ ha) hb)
        have hloop := h.nextLoop_eq (n := schedValidateSteps) hm' (w := m .ready) (z := [])
          (by simp) (fun x hx => List.mem_append_right l₂ hx) hdis (by simpa using hbound)
        have hskip : l₂.find? (mayRun st) = none := by
          rw [List.find?_eq_none]
          intro x hx
          simp [mayRun, hquiet x hx]
        have hstart : nextStart st = (l₂ ++ m .ready).headD 0 := by
          cases l₂ with
          | nil => exact absurd rfl hl
          | cons d l₂ =>
            have hd : d ≠ 0 := h.ne_zero (q := q) (by rw [hm]; simp)
            rw [nextStart_of_next (h.ne_zero hq) (by rw [hnext]; exact hd), hnext]
            rfl
        rw [hstart, hloop, List.find?_append, hskip, Option.none_or, roundRobin_of_not_mem hc]
  · have hno : ∀ q, st.current_thread ∉ m q := fun q hq => hlist ⟨q, hq⟩
    exact hhead (hno .ready) (hleaves.unlisted hno)

/-- `AA64NextThread` chooses rightly from any ready list that the scan can go through. -/
theorem nextThread_chooses (st : State) (m : Queue → List ℕ) (h : Links st m)
    (hlive : ∀ t ∈ m .ready, t ∈ st.live) (hlen : (m .ready).length ≤ schedValidateSteps)
    (hleaves : Leaves st m) : Chooses st (m .ready) (aa64NextThread st).current_thread := by
  have hready : st.members .ready = m .ready :=
    h.members_eq ((h.nodup .ready).subperm hlive).length_le
  have hbest := best_foldl st (m .ready)
  rw [← hready, ← auEDFPickNext_eq, hready] at hbest
  have hcur : (aa64NextThread st).current_thread = nextThread st := rfl
  rw [hcur, nextThread]
  cases hpick : auEDFPickNext st with
  | some t =>
    obtain ⟨ht, hrun, hmin⟩ := hbest.some t hpick
    have hmay : mayRun st t = true := by
      unfold edfMayRun at hrun
      exact (Bool.and_eq_true _ _ ▸ hrun).1
    constructor
    · exact fun _ => ⟨ht, hrun, hmin⟩
    · exact fun hno => absurd hrun (hno t ht)
    · exact fun _ => ⟨ht, hmay⟩
    · constructor
      · intro he
        simp [mayRun, he] at hmay
      · intro hno
        exact absurd hmay (hno t ht)
  | none =>
    have hno := hbest.none hpick
    simp only [h.nextLoop_roundRobin hleaves hlen]
    cases hf : (roundRobin (m .ready) st.current_thread).find? (mayRun st) with
    | some t =>
      have ht : t ∈ m .ready := mem_roundRobin.mp (List.mem_of_find?_eq_some hf)
      have hmay : mayRun st t = true := List.find?_some hf
      constructor
      · exact fun ⟨x, hx, hr⟩ => absurd hr (hno x hx)
      · exact fun _ => by rw [hf]
      · exact fun _ => ⟨ht, hmay⟩
      · constructor
        · intro he
          rw [Option.getD_some] at he
          simp [mayRun, he] at hmay
        · intro hall
          exact absurd hmay (hall t ht)
    | none =>
      have hnone : ∀ x ∈ m .ready, ¬mayRun st x := fun x hx =>
        List.find?_eq_none.mp hf x (mem_roundRobin.mpr hx)
      constructor
      · exact fun ⟨x, hx, hr⟩ => absurd hr (hno x hx)
      · exact fun _ => by rw [hf]
      · exact fun ⟨x, hx, hr⟩ => absurd hr (hnone x hx)
      · exact ⟨fun _ => hnone, fun _ => rfl⟩

theorem Leaves.of_ready (h : Links st m) (hc : st.current_thread ∈ m .ready) : Leaves st m := by
  constructor
  · intro q l₁ l₂ hq hm
    apply absurd _ hq
    exact h.unique q .ready st.current_thread (by rw [hm]; simp) hc
  · exact fun hno => absurd hc (hno .ready)

/-- Thread 5 has a deadline after thread 4, which is blocked. -/
def mixedRun : List Act :=
  [.create 2, .create 3, .create 4, .create 5, .setEDF 4 true 5 10, .setEDF 5 false 0 20, .block 4,
    .switch, .preempt, .create 6]

theorem nextThread_chooses_mixed : Chooses (exec 1 mixedRun) ((exec 1 mixedRun).members .ready)
    (aa64NextThread (exec 1 mixedRun)).current_thread := by
  have hsafe : Respects SchedSafe step (State.init 1) mixedRun := by decide +kernel
  obtain ⟨m, hm⟩ : ∃ m, SchedInv (exec 1 mixedRun) m :=
    hsafe.invariant (I := fun st => ∃ m, SchedInv st m) (fun st act ⟨_, hI⟩ hok => hI.step hok)
      (SchedInv.init (by decide))
  obtain rfl : (exec 1 mixedRun).members = m := funext hm.members_eq
  apply nextThread_chooses _ _ hm.toLinks
  · exact fun t ht => (hm.live t).mpr ⟨.ready, ht⟩
  · decide +kernel
  · exact .of_ready hm.toLinks (by decide +kernel)

end Xeneva.Sched
