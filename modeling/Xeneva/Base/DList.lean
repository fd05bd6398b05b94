import Mathlib

/-!
# Intrusive doubly linked lists

Cells are addresses of any type with a null; the two pointer fields of all cells are two
functions. `Linked` ties a list of cells to the pointers, and the lemmas say how the
pointer writes of the usual operations change it. They ask for the new pointers only at
the cells of the list, so that they fit whatever else a memory write does.
-/

namespace Xeneva.Base

variable {α : Type*} {null : α} {nxt prv nxt' prv' : α → α} {p h a : α} {l l₁ l₂ : List α}

/-- The cells `l` hang together, forwards from `h` to null and backwards to `p`. -/
def Linked (null : α) (nxt prv : α → α) : α → List α → α → Prop
  | _, [], h => h = null
  | p, a :: l, h => h = a ∧ a ≠ null ∧ prv a = p ∧ Linked null nxt prv a l (nxt a)

theorem Linked.congr (hl : Linked null nxt prv p l h) (hn : ∀ b ∈ l, nxt' b = nxt b)
    (hp : ∀ b ∈ l, prv' b = prv b) : Linked null nxt' prv' p l h := by
  induction l generalizing p h with
  | nil => exact hl
  | cons b l ih =>
    obtain ⟨rfl, hb, hprv, hl⟩ := hl
    refine ⟨rfl, hb, (hp _ (by simp)).trans hprv, ?_⟩
    rw [hn _ (by simp)]
    exact ih hl (fun c hc => hn c (by simp [hc])) fun c hc => hp c (by simp [hc])

theorem Linked.ne_null (hl : Linked null nxt prv p l h) (ha : a ∈ l) : a ≠ null := by
  induction l generalizing p h with
  | nil => cases ha
  | cons b l ih =>
    rcases List.mem_cons.mp ha with rfl | ha
    · exact hl.2.1
    · exact ih hl.2.2.2 ha

theorem Linked.head_eq (hl : Linked null nxt prv p l h) : h = l.headD null := by
  cases l with
  | nil => exact hl
  | cons b l => exact hl.1

theorem Linked.eq_nil (hl : Linked null nxt prv p l null) : l = [] := by
  cases l with
  | nil => rfl
  | cons b l => exact absurd hl.1.symm hl.2.1

/-- The neighbours of a cell in the middle of the list. -/
theorem Linked.at_split (hl : Linked null nxt prv p (l₁ ++ a :: l₂) h) :
    nxt a = l₂.headD null ∧ prv a = l₁.getLastD p := by
  induction l₁ generalizing p h with
  | nil => exact ⟨hl.2.2.2.head_eq, hl.2.2.1⟩
  | cons b l ih =>
    rw [List.getLastD_cons]
    exact ih hl.2.2.2

/-- A cell in front of the list. -/
theorem Linked.push (hl : Linked null nxt prv null l h) (ha : a ≠ null) (hnd : l.Nodup)
    (hna : nxt' a = h) (hpa : prv' a = null) (hph : h ≠ null → prv' h = a)
    (hn : ∀ b ∈ l, nxt' b = nxt b) (hp : ∀ b ∈ l, b ≠ h → prv' b = prv b) :
    Linked null nxt' prv' null (a :: l) a := by
  refine ⟨rfl, ha, hpa, ?_⟩
  cases l with
  | nil => exact hna.trans hl
  | cons b l =>
    obtain ⟨rfl, hb, -, hl⟩ := hl
    have hbl := (List.nodup_cons.mp hnd).1
    rw [hna]
    refine ⟨rfl, hb, hph hb, ?_⟩
    rw [hn _ (by simp)]
    exact hl.congr (fun c hc => hn c (by simp [hc]))
      fun c hc => hp c (by simp [hc]) fun hcb => hbl (hcb ▸ hc)

theorem getLastD_mem (hl : l ≠ []) : l.getLastD p ∈ l := by
  induction l generalizing p with
  | nil => exact absurd rfl hl
  | cons b l ih =>
    rw [List.getLastD_cons]
    by_cases hnil : l = []
    · simp [hnil]
    · exact List.mem_cons_of_mem b (ih hnil)

theorem getLastD_append_cons : (l₁ ++ a :: l₂).getLastD p = l₂.getLastD a := by
  induction l₁ generalizing p with
  | nil => exact List.getLastD_cons ..
  | cons b l ih =>
    rw [List.cons_append, List.getLastD_cons]
    exact ih

/-- A cell behind the list. -/
theorem Linked.append (hl : Linked null nxt prv p l h) (ha : a ≠ null) (hnd : l.Nodup)
    (hna : nxt' a = null) (hpa : prv' a = l.getLastD p) (hlast : l ≠ [] → nxt' (l.getLastD p) = a)
    (hn : ∀ b ∈ l, b ≠ l.getLastD p → nxt' b = nxt b) (hp : ∀ b ∈ l, prv' b = prv b) :
    Linked null nxt' prv' p (l ++ [a]) (if l = [] then a else h) := by
  induction l generalizing p h with
  | nil => exact ⟨rfl, ha, hpa, hna⟩
  | cons b l ih =>
    obtain ⟨rfl, hb, hprv, hl⟩ := hl
    obtain ⟨hbl, hnd⟩ := List.nodup_cons.mp hnd
    simp only [List.getLastD_cons, reduceCtorEq, if_false] at hpa hlast hn ⊢
    refine ⟨rfl, hb, (hp _ (by simp)).trans hprv, ?_⟩
    have ih := ih hl hnd hpa (fun _ => hlast (by simp)) (fun c hc => hn c (by simp [hc]))
      fun c hc => hp c (by simp [hc])
    by_cases hnil : l = []
    · subst hnil
      rw [show nxt' h = a from hlast (by simp)]
      exact ih
    · have hne : h ≠ l.getLastD h := fun he => hbl (by rw [he]; exact getLastD_mem hnil)
      rw [hn _ (by simp) hne]
      rwa [if_neg hnil] at ih

/-- The cell before one in the list, if it is not the first. -/
theorem Linked.prev_cases (hl : Linked null nxt prv null l h) (ha : a ∈ l) (hnd : l.Nodup) :
    (prv a = null ∧ h = a) ∨ (prv a ∈ l ∧ prv a ≠ a ∧ nxt (prv a) = a ∧ h ≠ a) := by
  obtain ⟨l₁, l₂, rfl⟩ := List.append_of_mem ha
  obtain ⟨-, -, hdis⟩ := List.nodup_append.mp hnd
  have hprev := hl.at_split.2
  rcases List.eq_nil_or_concat l₁ with rfl | ⟨l₁', b, rfl⟩
  · exact .inl ⟨hprev, hl.1⟩
  · rw [List.concat_eq_append, List.getLastD_concat] at hprev
    have hbm : b ∈ l₁'.concat b := by simp
    refine .inr ⟨?_, ?_, ?_, ?_⟩
    · rw [hprev]
      exact List.mem_append_left _ hbm
    · rw [hprev]
      exact hdis b hbm a List.mem_cons_self
    · rw [List.concat_eq_append, List.append_assoc] at hl
      rw [hprev]
      exact hl.at_split.1
    · have hhead := hl.head_eq
      intro he
      cases l₁' with
      | nil =>
        exact hdis b hbm a List.mem_cons_self (hhead.symm.trans he)
      | cons c l =>
        exact hdis c (by simp) a List.mem_cons_self (hhead.symm.trans he)

/-- The cell behind one in the list, if it is not the last. -/
theorem Linked.next_cases (hl : Linked null nxt prv null l h) (ha : a ∈ l) (hnd : l.Nodup) :
    nxt a = null ∨ (nxt a ∈ l ∧ nxt a ≠ a ∧ prv (nxt a) = a) := by
  obtain ⟨l₁, l₂, rfl⟩ := List.append_of_mem ha
  obtain ⟨-, hnd₂, -⟩ := List.nodup_append.mp hnd
  have hnext := hl.at_split.1
  cases l₂ with
  | nil => exact .inl hnext
  | cons b l₂ =>
    rw [List.headD_cons] at hnext
    refine .inr ⟨by simp [hnext], ?_, ?_⟩
    · rw [hnext]
      rintro rfl
      simp at hnd₂
    · rw [List.append_cons] at hl
      have hback := hl.at_split.2
      rwa [List.getLastD_concat, ← hnext] at hback

section Erase
variable [DecidableEq α]

/-- A cell taken out of the list: its neighbours are linked to each other. -/
theorem Linked.erase (hl : Linked null nxt prv p l h) (ha : a ∈ l) (hnd : l.Nodup) (hpl : p ∉ l)
    (hn : ∀ b ∈ l, b ≠ a → nxt' b = if b = prv a then nxt a else nxt b)
    (hp : ∀ b ∈ l, b ≠ a → prv' b = if b = nxt a then prv a else prv b) :
    Linked null nxt' prv' p (l.erase a) (if h = a then nxt a else h) := by
  induction l generalizing p h with
  | nil => cases ha
  | cons b l ih =>
    obtain ⟨rfl, hb, hprv, hl⟩ := hl
    obtain ⟨hbl, hnd'⟩ := List.nodup_cons.mp hnd
    by_cases hba : h = a
    · subst hba
      rw [List.erase_cons_head, if_pos rfl]
      cases l with
      | nil => exact hl
      | cons c l =>
        obtain ⟨hc, hcn, -, hl⟩ := hl
        have hcl := (List.nodup_cons.mp hnd').1
        have hch : c ≠ h := fun he => hbl (by simp [he])
        refine ⟨hc, hcn, ?_, ?_⟩
        · rw [hp c (by simp) hch, if_pos hc.symm, hprv]
        · have hcp : c ≠ prv h := fun he => hpl (by simp [he, hprv])
          rw [hn c (by simp) hch, if_neg hcp]
          refine hl.congr (fun d hd => ?_) fun d hd => ?_
          · have hdh : d ≠ h := fun he => hbl (by simp [← he, hd])
            have hdp : d ≠ prv h := fun he => hpl (by simp [← hprv, ← he, hd])
            rw [hn d (by simp [hd]) hdh, if_neg hdp]
          · have hdh : d ≠ h := fun he => hbl (by simp [← he, hd])
            have hdc : d ≠ nxt h := fun he => hcl (by rw [← hc, ← he]; exact hd)
            rw [hp d (by simp [hd]) hdh, if_neg hdc]
    · have hal : a ∈ l := (List.mem_cons.mp ha).resolve_left fun he => hba he.symm
      rw [List.erase_cons_tail (by simpa using hba), if_neg hba]
      have ih := ih hl hal hnd' hbl (fun c hc => hn c (by simp [hc])) fun c hc =>
        hp c (by simp [hc])
      have hbn : h ≠ nxt a := by
        obtain ⟨l₁, l₂, rfl⟩ := List.append_of_mem hal
        rw [hl.at_split.1]
        cases l₂ with
        | nil => exact hb
        | cons c l₂ => rintro rfl; simp at hbl
      refine ⟨rfl, hb, ?_, ?_⟩
      · rw [hp h (by simp) hba, if_neg hbn, hprv]
      · rw [hn h (by simp) hba]
        by_cases hna : nxt h = a
        · have hprva : prv a = h := by
            cases l with
            | nil => cases hal
            | cons c l => rw [← hna, hl.1]; exact hl.2.2.1
          rw [if_pos hna] at ih
          rwa [hprva, if_pos rfl]
        · have hne : h ≠ prv a := by
            obtain ⟨l₁, l₂, rfl⟩ := List.append_of_mem hal
            rw [hl.at_split.2]
            have hl₁ : l₁ ≠ [] := by
              rintro rfl
              exact hna hl.1
            intro he
            exact hbl (List.mem_append_left _ (he ▸ getLastD_mem hl₁))
          rw [if_neg hna] at ih
          rwa [if_neg hne]

/-- The last cell after one is taken out. -/
theorem Linked.getLastD_erase (hl : Linked null nxt prv p l h) (ha : a ∈ l) (hnd : l.Nodup) :
    (l.erase a).getLastD p = if l.getLastD p = a then prv a else l.getLastD p := by
  obtain ⟨l₁, l₂, rfl⟩ := List.append_of_mem ha
  have hal : a ∉ l₁ := fun hm => (List.nodup_append.mp hnd).2.2 a hm a (by simp) rfl
  rw [List.erase_append_right _ hal, List.erase_cons_head, hl.at_split.2]
  rw [getLastD_append_cons]
  cases l₂ with
  | nil => simp
  | cons b l₂ =>
    have hne : l₂.getLastD b ≠ a := by
      intro he
      have hm := getLastD_mem (p := a) (l := b :: l₂) (by simp)
      rw [List.getLastD_cons, he] at hm
      exact (List.nodup_cons.mp (List.nodup_append.mp hnd).2.1).1 hm
    rw [getLastD_append_cons, List.getLastD_cons, if_neg hne]

end Erase

section Walk
variable [DecidableEq α]

/-- The cells met by a walk along the forward pointers, `n` steps at most. -/
def walk (null : α) (nxt : α → α) : ℕ → α → List α
  | 0, _ => []
  | n + 1, a => if a = null then [] else a :: walk null nxt n (nxt a)

theorem Linked.walk_eq (hl : Linked null nxt prv p l h) {n : ℕ} (hn : l.length ≤ n) :
    walk null nxt n h = l := by
  induction n generalizing p l h with
  | zero => exact (List.eq_nil_of_length_eq_zero (Nat.le_zero.mp hn)).symm
  | succ n ih =>
    cases l with
    | nil => rw [show h = null from hl]; simp [walk]
    | cons b l =>
      obtain ⟨rfl, hb, -, hl⟩ := hl
      rw [walk, if_neg hb, ih hl (Nat.le_of_succ_le_succ hn)]

end Walk

end Xeneva.Base
