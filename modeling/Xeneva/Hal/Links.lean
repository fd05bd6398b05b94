import Xeneva.Hal.Sched

/-!
# Linking and unlinking threads

`Links st m` says that the lists of the state hold the threads `m`, each thread at most
once. The two list operations move threads in and out of `m`; everything else a
scheduler function writes leaves the links alone.
-/

namespace Xeneva.Sched
open Base

section Updates
variable (st : State) (t a : ℕ) (c : AA64Thread) (q r : Queue) (l : ThreadList)

@[simp] theorem setThr_thr : (st.setThr t c).thr a = if a = t then c else st.thr a := by
  simp [State.setThr, Function.update_apply]

@[simp] theorem setThr_lists : (st.setThr t c).lists = st.lists := rfl

@[simp] theorem setThr_live : (st.setThr t c).live = st.live := rfl

@[simp] theorem setList_thr : (st.setList q l).thr = st.thr := rfl

@[simp] theorem setList_lists : (st.setList q l).lists r = if r = q then l else st.lists r := by
  simp [State.setList, Function.update_apply]

@[simp] theorem setList_live : (st.setList q l).live = st.live := rfl

end Updates

/-- A thread without its links. -/
def AA64Thread.data (c : AA64Thread) : AA64Thread := { c with next := 0, prev := 0 }

/-- What the list operations leave alone. -/
structure SameData (st st' : State) : Prop where
  data : ∀ a, (st'.thr a).data = (st.thr a).data
  live : st'.live = st.live
  current_thread : st'.current_thread = st.current_thread
  idle_thr : st'.idle_thr = st.idle_thr

theorem SameData.refl (st : State) : SameData st st := ⟨fun _ => rfl, rfl, rfl, rfl⟩

theorem SameData.trans {st st' st'' : State} (h : SameData st st') (h' : SameData st' st'') :
    SameData st st'' :=
  ⟨fun a => (h'.data a).trans (h.data a), h'.live.trans h.live,
    h'.current_thread.trans h.current_thread, h'.idle_thr.trans h.idle_thr⟩

theorem SameData.state {st st' : State} (h : SameData st st') (a : ℕ) :
    (st'.thr a).state = (st.thr a).state := by
  simpa only [AA64Thread.data] using congrArg AA64Thread.state (h.data a)

theorem SameData.setThr {st mid : State} {t : ℕ} {c : AA64Thread} (h : SameData st mid)
    (hc : c.data = (mid.thr t).data) : SameData st (mid.setThr t c) := by
  refine h.trans ⟨fun a => ?_, rfl, rfl, rfl⟩
  by_cases hat : a = t
  · subst hat
    simpa using hc
  · simp [hat]

theorem SameData.setList {st mid : State} (h : SameData st mid) (q : Queue) (l : ThreadList) :
    SameData st (mid.setList q l) := h.trans ⟨fun _ => rfl, rfl, rfl, rfl⟩

theorem SameData.schedLink (q : Queue) (st : State) (t : ℕ) : SameData st (schedLink q st t) := by
  have h := (SameData.refl st).setThr (t := t) (c := { st.thr t with next := 0, prev := 0 }) rfl
  unfold Sched.schedLink
  dsimp only
  split
  · exact h.setList q _
  · refine SameData.setList ?_ q _
    refine SameData.setThr ?_ rfl
    exact h.setThr rfl

theorem SameData.unlinkNext (q : Queue) (st : State) (t : ℕ) :
    SameData st (unlinkNext q st t) := by
  unfold Sched.unlinkNext
  split_ifs
  · exact (SameData.refl st).setThr rfl
  · exact (SameData.refl st).setList q _
  · exact .refl st

theorem SameData.unlinkPrev (q : Queue) (st : State) (t : ℕ) :
    SameData st (unlinkPrev q st t) := by
  unfold Sched.unlinkPrev
  split_ifs
  · exact (SameData.refl st).setThr rfl
  · exact (SameData.refl st).setList q _
  · exact .refl st

theorem SameData.schedUnlink (q : Queue) (st : State) (t : ℕ) :
    SameData st (schedUnlink q st t) := by
  unfold Sched.schedUnlink
  split_ifs
  · exact .refl st
  · exact (SameData.unlinkNext q st t).trans (.unlinkPrev q _ t)

/-! ## The lists -/

/-- The lists hold the threads `m`. -/
structure Links (st : State) (m : Queue → List ℕ) : Prop where
  linked : ∀ q, Linked 0 (fun a => (st.thr a).next) (fun a => (st.thr a).prev) 0 (m q)
    (st.lists q).head
  last : ∀ q, (st.lists q).last = (m q).getLastD 0
  nodup : ∀ q, (m q).Nodup
  unique : ∀ q r t, t ∈ m q → t ∈ m r → q = r

variable {st st' : State} {m : Queue → List ℕ} {q r : Queue} {t a : ℕ}

theorem Links.ne_zero (h : Links st m) (ht : t ∈ m q) : t ≠ 0 := (h.linked q).ne_null ht

/-- The lists read the links of their threads only. -/
theorem Links.congr (h : Links st m)
    (hthr : ∀ q, ∀ a ∈ m q, (st'.thr a).next = (st.thr a).next ∧
      (st'.thr a).prev = (st.thr a).prev) (hl : st'.lists = st.lists) : Links st' m where
  linked q := by
    rw [hl]
    exact (h.linked q).congr (fun a ha => (hthr q a ha).1) fun a ha => (hthr q a ha).2
  last q := by
    rw [hl]
    exact h.last q
  nodup := h.nodup
  unique := h.unique

/-- Writing a thread without touching its links. -/
theorem Links.setThr (h : Links st m) {c : AA64Thread} (hn : c.next = (st.thr t).next)
    (hp : c.prev = (st.thr t).prev) : Links (st.setThr t c) m := by
  refine h.congr (fun q a _ => ?_) rfl
  by_cases hat : a = t
  · subst hat
    simp [hn, hp]
  · simp [hat]

theorem Links.setState (h : Links st m) (t : ℕ) (s : ThreadState) :
    Links (st.setState t s) m := h.setThr rfl rfl

/-- The neighbours of a thread in a list are threads of that list. -/
theorem Links.neighbours (h : Links st m) (ht : t ∈ m q) :
    ((st.thr t).next = 0 ∨ (st.thr t).next ∈ m q ∧ (st.thr t).next ≠ t) ∧
      ((st.thr t).prev = 0 ∨ (st.thr t).prev ∈ m q ∧ (st.thr t).prev ≠ t) := by
  have hnd := h.nodup q
  have hl := h.linked q
  obtain ⟨l₁, l₂, hm⟩ := List.append_of_mem ht
  rw [hm] at hl hnd ⊢
  obtain ⟨hn, hp⟩ := hl.at_split
  rw [hn, hp]
  obtain ⟨-, hnd₂, hdis⟩ := List.nodup_append.mp hnd
  constructor
  · cases l₂ with
    | nil => exact .inl rfl
    | cons b l₂ =>
      refine .inr ⟨by simp, ?_⟩
      rintro rfl
      simp at hnd₂
  · by_cases hl₁ : l₁ = []
    · exact .inl (by simp [hl₁])
    · have hmem : l₁.getLastD 0 ∈ l₁ := getLastD_mem hl₁
      exact .inr ⟨List.mem_append_left _ hmem, hdis _ hmem _ (by simp)⟩

/-- The first thread is the one without a predecessor, the last the one without a
successor. -/
theorem Links.ends (h : Links st m) (ht : t ∈ m q) :
    ((st.thr t).prev = 0 ↔ (st.lists q).head = t) ∧
      ((st.thr t).next = 0 ↔ (st.lists q).last = t) := by
  have hnd := h.nodup q
  have hl := h.linked q
  have hhead := hl.head_eq
  have hlast := h.last q
  have hz : ∀ a ∈ m q, a ≠ 0 := fun a ha => h.ne_zero ha
  obtain ⟨l₁, l₂, hm⟩ := List.append_of_mem ht
  rw [hm] at hl hnd hhead hlast hz
  obtain ⟨hn, hp⟩ := hl.at_split
  obtain ⟨hnd₁, hnd₂, hdis⟩ := List.nodup_append.mp hnd
  rw [getLastD_append_cons] at hlast
  rw [hn, hp, hhead, hlast]
  constructor
  · cases l₁ with
    | nil => simp
    | cons b l₁ =>
      have hmem : (b :: l₁).getLastD 0 ∈ b :: l₁ := getLastD_mem (by simp)
      refine iff_of_false (hz _ (List.mem_append_left _ hmem)) ?_
      intro (he : b = t)
      exact hdis b (by simp) t (by simp) he
  · cases l₂ with
    | nil => simp
    | cons b l₂ =>
      have hmem : (b :: l₂).getLastD t ∈ b :: l₂ := getLastD_mem (by simp)
      refine iff_of_false (hz _ (by simp)) ?_
      intro he
      rw [he] at hmem
      exact (List.nodup_cons.mp hnd₂).1 hmem

/-- The pointers and the ends of the lists after a thread is unlinked. -/
theorem schedUnlink_spec (h : Links st m) (ht : t ∈ m q) :
    (∀ a, a ≠ 0 → ((schedUnlink q st t).thr a).next =
        if a = (st.thr t).prev then (st.thr t).next else (st.thr a).next) ∧
      (∀ a, a ≠ 0 → ((schedUnlink q st t).thr a).prev =
        if a = (st.thr t).next then (st.thr t).prev else (st.thr a).prev) ∧
      (schedUnlink q st t).lists q =
        ⟨if (st.lists q).head = t then (st.thr t).next else (st.lists q).head,
          if (st.lists q).last = t then (st.thr t).prev else (st.lists q).last⟩ ∧
      ∀ r, r ≠ q → (schedUnlink q st t).lists r = st.lists r := by
  have ht0 := h.ne_zero ht
  have hhead : (st.lists q).head ≠ 0 := by
    intro h0
    have hl := h.linked q
    rw [h0] at hl
    rw [hl.eq_nil] at ht
    cases ht
  obtain ⟨hfirst, hlast⟩ := h.ends ht
  obtain ⟨hnext, hprev⟩ := h.neighbours ht
  have hpt : (st.thr t).prev ≠ t := by
    rcases hprev with h0 | ⟨-, h1⟩
    · rw [h0]; exact Ne.symm ht0
    · exact h1
  -- the forward half leaves the thread itself and the back pointers alone
  have hfwd : (unlinkNext q st t).thr t = st.thr t ∧
      (∀ a, a ≠ 0 → ((unlinkNext q st t).thr a).next =
        if a = (st.thr t).prev then (st.thr t).next else (st.thr a).next) ∧
      (∀ a, ((unlinkNext q st t).thr a).prev = (st.thr a).prev) ∧
      (unlinkNext q st t).lists q = { st.lists q with
        head := if (st.lists q).head = t then (st.thr t).next else (st.lists q).head } ∧
      ∀ r, r ≠ q → (unlinkNext q st t).lists r = st.lists r := by
    unfold unlinkNext
    by_cases hp0 : (st.thr t).prev = 0
    · rw [if_neg (not_not.mpr hp0), if_pos (hfirst.mp hp0)]
      refine ⟨rfl, fun a ha => ?_, fun a => rfl, ?_, fun r hr => by simp [hr]⟩
      · simp [hp0, ha]
      · simp [hfirst.mp hp0]
    · rw [if_pos hp0]
      refine ⟨by simp [Ne.symm hpt], fun a _ => ?_, fun a => ?_, ?_, fun r _ => rfl⟩
      · by_cases ha : a = (st.thr t).prev <;> simp [ha]
      · by_cases ha : a = (st.thr t).prev <;> simp [ha]
      · simp [mt hfirst.mpr hp0]
  obtain ⟨hf1, hf2, hf3, hf4, hf5⟩ := hfwd
  rw [schedUnlink, if_neg (not_or.mpr ⟨ht0, hhead⟩), unlinkPrev, hf1]
  by_cases hn0 : (st.thr t).next = 0
  · have hl : ((unlinkNext q st t).lists q).last = t := by rw [hf4]; exact hlast.mp hn0
    rw [if_neg (not_not.mpr hn0), if_pos hl]
    refine ⟨fun a ha => ?_, fun a ha => ?_, ?_, fun r hr => ?_⟩
    · simpa using hf2 a ha
    · simpa [hn0, ha] using hf3 a
    · simp [hf4, hlast.mp hn0]
    · simpa [hr] using hf5 r hr
  · rw [if_pos hn0]
    refine ⟨fun a ha => ?_, fun a ha => ?_, ?_, fun r hr => ?_⟩
    · rw [← hf2 a ha]
      by_cases han : a = (st.thr t).next <;> simp [han]
    · by_cases han : a = (st.thr t).next
      · simp [han]
      · simpa [han] using hf3 a
    · simp [hf4, mt hlast.mpr hn0]
    · simpa using hf5 r hr

theorem Links.unlink (h : Links st m) (ht : t ∈ m q) :
    Links (schedUnlink q st t) (Function.update m q ((m q).erase t)) := by
  obtain ⟨hn, hp, hq, hr⟩ := schedUnlink_spec h ht
  obtain ⟨hnext, hprev⟩ := h.neighbours ht
  have hsub : ∀ r, ∀ a, a ∈ Function.update m q ((m q).erase t) r → a ∈ m r := by
    intro r a ha
    by_cases hrq : r = q
    · subst hrq
      rw [Function.update_self] at ha
      exact List.mem_of_mem_erase ha
    · rwa [Function.update_of_ne hrq] at ha
  refine ⟨fun r => ?_, fun r => ?_, fun r => ?_, fun r r' a ha ha' =>
    h.unique r r' a (hsub r a ha) (hsub r' a ha')⟩
  · by_cases hrq : r = q
    · subst hrq
      rw [Function.update_self, hq]
      exact (h.linked r).erase ht (h.nodup r) (fun h0 => h.ne_zero h0 rfl)
        (fun b hb _ => hn b (h.ne_zero hb)) fun b hb _ => hp b (h.ne_zero hb)
    · rw [Function.update_of_ne hrq, hr r hrq]
      have hne : ∀ a ∈ m r, a ≠ (st.thr t).next ∧ a ≠ (st.thr t).prev := by
        intro a ha
        constructor <;> rintro rfl
        · exact hnext.elim (h.ne_zero ha) fun hm => hrq (h.unique r q _ ha hm.1)
        · exact hprev.elim (h.ne_zero ha) fun hm => hrq (h.unique r q _ ha hm.1)
      refine (h.linked r).congr (fun a ha => ?_) fun a ha => ?_
      · rw [hn a (h.ne_zero ha), if_neg (hne a ha).2]
      · rw [hp a (h.ne_zero ha), if_neg (hne a ha).1]
  · by_cases hrq : r = q
    · subst hrq
      rw [Function.update_self, hq, (h.linked r).getLastD_erase ht (h.nodup r), ← h.last r]
    · rw [Function.update_of_ne hrq, hr r hrq]
      exact h.last r
  · by_cases hrq : r = q
    · subst hrq
      rw [Function.update_self]
      exact (h.nodup r).erase t
    · rw [Function.update_of_ne hrq]
      exact h.nodup r

theorem Links.link (h : Links st m) (ht : t ≠ 0) (hno : ∀ r, t ∉ m r) :
    Links (schedLink q st t) (Function.update m q (m q ++ [t])) := by
  have hlast := h.last q
  -- what the linking writes, in the list `q` and elsewhere
  have hspec : ((schedLink q st t).thr t).next = 0 ∧
      ((schedLink q st t).thr t).prev = (m q).getLastD 0 ∧
      (∀ a, a ≠ t → ((schedLink q st t).thr a).next =
        if m q ≠ [] ∧ a = (m q).getLastD 0 then t else (st.thr a).next) ∧
      (∀ a, a ≠ t → ((schedLink q st t).thr a).prev = (st.thr a).prev) ∧
      (schedLink q st t).lists q = ⟨if m q = [] then t else (st.lists q).head, t⟩ ∧
      ∀ r, r ≠ q → (schedLink q st t).lists r = st.lists r := by
    unfold schedLink
    dsimp only
    split
    · next hh =>
      rw [setThr_lists] at hh
      have hl := h.linked q
      rw [hh] at hl
      have hm := hl.eq_nil
      exact ⟨by simp, by simp [hm], fun a ha => by simp [ha, hm], fun a ha => by simp [ha],
        by simp [hm], fun r hr => by simp [hr]⟩
    · next hh =>
      have hm : m q ≠ [] := by
        intro hm
        have hl := h.linked q
        rw [hm] at hl
        exact hh hl
      have hmem : (m q).getLastD 0 ∈ m q := getLastD_mem hm
      have hlt : (m q).getLastD 0 ≠ t := fun he => hno q (he ▸ hmem)
      simp only [setThr_lists, hlast]
      generalize (m q).getLastD 0 = z at hmem hlt ⊢
      refine ⟨by simp [Ne.symm hlt], by simp, fun a ha => ?_, fun a ha => ?_, by simp [hm],
        fun r hr => by simp [hr]⟩
      · by_cases hal : a = z
        · subst hal
          simp [hlt, hm]
        · simp only [setList_thr, setThr_thr, ha, if_false, hal, and_false]
      · by_cases hal : a = z
        · subst hal
          simp [hlt]
        · simp only [setList_thr, setThr_thr, ha, if_false, hal]
  obtain ⟨hnt, hpt, hn, hp, hq, hr⟩ := hspec
  refine ⟨fun r => ?_, fun r => ?_, fun r => ?_, fun r r' a ha ha' => ?_⟩
  · by_cases hrq : r = q
    · subst hrq
      rw [Function.update_self, hq]
      refine (h.linked r).append ht (h.nodup r) hnt hpt (fun hm => ?_) (fun b hb hbl => ?_)
        fun b hb => ?_
      · have hmem : (m r).getLastD 0 ∈ m r := getLastD_mem hm
        rw [hn _ fun he => hno r (he ▸ hmem), if_pos ⟨hm, rfl⟩]
      · rw [hn b fun he => hno r (he ▸ hb), if_neg fun hc => hbl hc.2]
      · exact hp b fun he => hno r (he ▸ hb)
    · rw [Function.update_of_ne hrq, hr r hrq]
      refine (h.linked r).congr (fun a ha => ?_) fun a ha => hp a fun he => hno r (he ▸ ha)
      refine (hn a fun he => hno r (he ▸ ha)).trans (if_neg ?_)
      rintro ⟨hm, rfl⟩
      exact hrq (h.unique r q _ ha (getLastD_mem hm))
  · by_cases hrq : r = q
    · subst hrq
      rw [Function.update_self, hq, getLastD_append_cons]
      rfl
    · rw [Function.update_of_ne hrq, hr r hrq]
      exact h.last r
  · by_cases hrq : r = q
    · subst hrq
      rw [Function.update_self]
      refine List.nodup_append.mpr ⟨h.nodup r, List.nodup_singleton t, ?_⟩
      rintro a ha b hb rfl
      rw [List.mem_singleton] at hb
      exact hno r (hb ▸ ha)
    · rw [Function.update_of_ne hrq]
      exact h.nodup r
  · have hcase : ∀ r, a ∈ Function.update m q (m q ++ [t]) r → a ∈ m r ∨ a = t ∧ r = q := by
      intro r ha
      by_cases hrq : r = q
      · subst hrq
        rw [Function.update_self, List.mem_append, List.mem_singleton] at ha
        exact ha.imp id fun hat => ⟨hat, rfl⟩
      · rw [Function.update_of_ne hrq] at ha
        exact .inl ha
    rcases hcase r ha with ha | ⟨rfl, rfl⟩ <;> rcases hcase r' ha' with ha' | ⟨hat, hr'⟩
    · exact h.unique r r' a ha ha'
    · exact absurd (hat ▸ ha) (hno r)
    · exact absurd ha' (hno r')
    · exact hr'.symm

end Xeneva.Sched
