import Xeneva.Mm.PmmInit

/-!
# Owners of pages

The owner table has an entry for each of the first owners that were handed a block. A ledger
beside the manager says for whom each block was allocated, and whom it counts for.
-/

namespace Xeneva.Pmm
open Base

variable {E ids : List ℤ} {P : ℕ → ℕ} {owner : ℤ} {held : List (ℕ × ℕ)} {x o i : ℕ}

def auPmmOwnerPages (st : State) (owner : ℤ) : ℕ :=
  match st.pmm_owner_table.find? fun e => e.in_use ∧ e.id = owner with
  | some e => e.pages
  | none => 0

/-- `ids` are the owners that were handed a block, each once, by their first. `wanted` is for
each head the owner its block was allocated for, `charged` the one it counts for. -/
structure Ledger where
  machine : Machine
  ids : List ℤ := []
  wanted : ℕ → ℤ := fun _ => 0
  charged : ℕ → ℤ := fun _ => 0

def meet (ids : List ℤ) (owner : ℤ) : List ℤ := if owner ∈ ids then ids else ids ++ [owner]

/-- The owners with an entry in the table. -/
def entries (ids : List ℤ) : List ℤ := ids.take PMM_OWNER_SLOTS

/-- A block for an owner without an entry counts for the kernel, or else for the first entry. -/
def chargee (entries : List ℤ) (owner : ℤ) : ℤ :=
  if owner ∈ entries then owner
  else if PMM_OWNER_KERNEL ∈ entries then PMM_OWNER_KERNEL
  else entries.headD owner

def Ledger.give (g : Ledger) (machine : Machine) (head : ℕ) (owner : ℤ) : Ledger :=
  { machine
    ids := meet g.ids owner
    wanted := Function.update g.wanted head owner
    charged := Function.update g.charged head (chargee (entries (meet g.ids owner)) owner) }

/-- A call of the manager. The ledger notes the block that a call for an owner is given. -/
def ledgerStep (g : Ledger) (a : Act) : Ledger :=
  let machine := step g.machine a
  match a, machine.held with
  | .alloc _ _ _ _ owner, (head, _) :: _ =>
    if machine.held.length = g.machine.held.length + 1 then g.give machine head owner
    else { g with machine }
  | _, _ => { g with machine }

/-- The pages of the blocks of a kind. -/
def heldPages (held : List (ℕ × ℕ)) (p : ℕ × ℕ → Bool) : ℕ :=
  ((held.filter p).map fun b => 2 ^ b.2).sum

/-! ## The table -/

def entryOf (E : List ℤ) (P : ℕ → ℕ) (i : ℕ) : PmmOwnerEntry :=
  match E[i]? with
  | some id => { id, pages := P i, in_use := true }
  | none => {}

/-- The table with the entries `E`. -/
def tableOf (E : List ℤ) (P : ℕ → ℕ) : List PmmOwnerEntry :=
  (List.range PMM_OWNER_SLOTS).map (entryOf E P)

theorem tableOf_length (E : List ℤ) (P : ℕ → ℕ) : (tableOf E P).length = PMM_OWNER_SLOTS := by
  simp [tableOf]

theorem tableOf_get (hi : i < PMM_OWNER_SLOTS) : (tableOf E P)[i]? = some (entryOf E P i) := by
  simp [tableOf, hi]

theorem entryOf_some {id : ℤ} (h : E[i]? = some id) : entryOf E P i = ⟨id, P i, true⟩ := by
  simp only [entryOf, h]

theorem entryOf_none (h : E.length ≤ i) : entryOf E P i = {} := by
  simp only [entryOf, List.getElem?_eq_none h]

theorem tableOf_nil (P : ℕ → ℕ) : tableOf [] P = List.replicate PMM_OWNER_SLOTS {} := by
  unfold tableOf
  rw [List.map_congr_left (g := fun _ => ({} : PmmOwnerEntry)) fun i _ =>
    entryOf_none (Nat.zero_le i), List.map_const', List.length_range]

section Search
variable {q : PmmOwnerEntry → Bool}

theorem find_entry_some {j : ℕ} (hq : ∀ e ∈ tableOf E P, q e → e.in_use ∧ e.id = owner)
    (h : (tableOf E P).findIdx? q = some j) : E[j]? = some owner := by
  obtain ⟨hj, hp, -⟩ := List.findIdx?_eq_some_iff_getElem.mp h
  have hget := tableOf_get (E := E) (P := P) (tableOf_length E P ▸ hj)
  rw [List.getElem?_eq_getElem hj] at hget
  have hown := hq _ (List.getElem_mem hj) hp
  rw [Option.some.inj hget] at hown
  cases hid : E[j]? with
  | none =>
    rw [entryOf_none (List.getElem?_eq_none_iff.mp hid)] at hown
    exact absurd hown.1 Bool.false_ne_true
  | some id =>
    rw [entryOf_some hid] at hown
    rw [← hown.2]

theorem find_entry_none (hE : E.length ≤ PMM_OWNER_SLOTS)
    (hq : ∀ e ∈ tableOf E P, e.in_use ∧ e.id = owner → q e)
    (h : (tableOf E P).findIdx? q = none) : owner ∉ E := by
  intro hm
  obtain ⟨j, hj⟩ := List.mem_iff_getElem?.mp hm
  have hlt := (List.getElem?_eq_some_iff.mp hj).1
  have hmem := List.mem_of_getElem? (tableOf_get (E := E) (P := P) (Nat.lt_of_lt_of_le hlt hE))
  have hn := List.findIdx?_eq_none_iff.mp h _ hmem
  have hy := hq _ hmem (by rw [entryOf_some hj]; exact ⟨rfl, rfl⟩)
  rw [hn] at hy
  exact Bool.false_ne_true hy

end Search

theorem in_use_of_full (hE : E.length = PMM_OWNER_SLOTS) {e : PmmOwnerEntry}
    (he : e ∈ tableOf E P) : e.in_use = true := by
  obtain ⟨j, hj, rfl⟩ := List.mem_map.mp he
  rw [List.mem_range, ← hE] at hj
  rw [entryOf_some (List.getElem?_eq_getElem hj)]

/-- The first entry that is not in use. -/
theorem find_unused (hE : E.length ≤ PMM_OWNER_SLOTS) :
    (tableOf E P).findIdx? (fun e => ¬e.in_use) =
      if E.length = PMM_OWNER_SLOTS then none else some E.length := by
  split_ifs with hfull
  · rw [List.findIdx?_eq_none_iff]
    intro e he
    simp [in_use_of_full hfull he]
  · rw [List.findIdx?_eq_some_iff_getElem]
    have hlt : E.length < PMM_OWNER_SLOTS := Nat.lt_of_le_of_ne hE hfull
    refine ⟨by rwa [tableOf_length], ?_, fun j hj => ?_⟩
    · simp [tableOf, entryOf_none (Nat.le_refl E.length)]
    · simp [tableOf, entryOf_some (List.getElem?_eq_getElem hj)]

theorem entries_length_le (ids : List ℤ) : (entries ids).length ≤ PMM_OWNER_SLOTS := by
  unfold entries
  rw [List.length_take]
  exact Nat.min_le_left ..

/-- A full table stays as it is. -/
theorem entries_meet_of_full (h : (entries ids).length = PMM_OWNER_SLOTS) (owner : ℤ) :
    entries (meet ids owner) = entries ids := by
  unfold entries at h ⊢
  rw [List.length_take] at h
  unfold meet
  split_ifs
  · rfl
  · exact List.take_append_of_le_length (by omega)

theorem entries_of_not_full (h : (entries ids).length ≠ PMM_OWNER_SLOTS) : entries ids = ids := by
  unfold entries at h ⊢
  rw [List.length_take] at h
  exact List.take_of_length_le (by omega)

/-- The next entry goes to a new owner. -/
theorem entries_meet_of_not_full (h : (entries ids).length ≠ PMM_OWNER_SLOTS)
    (hn : owner ∉ entries ids) : entries (meet ids owner) = entries ids ++ [owner] := by
  have hlen := entries_length_le ids
  have hids := entries_of_not_full h
  rw [hids] at h hn hlen ⊢
  unfold meet entries
  rw [if_neg hn, List.take_of_length_le]
  rw [List.length_append]
  have hlt := Nat.lt_of_le_of_ne hlen h
  exact hlt

theorem set_tableOf (hlt : E.length < PMM_OWNER_SLOTS) (hP : P E.length = 0) (owner : ℤ) :
    (tableOf E P).set E.length { id := owner, pages := 0, in_use := true } =
      tableOf (E ++ [owner]) P := by
  apply List.ext_getElem?
  intro j
  by_cases hj : j < PMM_OWNER_SLOTS
  · rw [List.getElem?_set, tableOf_get hj, tableOf_get hj, tableOf_length]
    by_cases hje : E.length = j
    · subst hje
      have hnew : (E ++ [owner])[E.length]? = some owner := by simp
      rw [if_pos rfl, if_pos hlt, entryOf_some hnew, hP]
    · rw [if_neg hje]
      simp only [entryOf, List.getElem?_append]
      split_ifs with hjl
      · rfl
      · rw [List.getElem?_eq_none (by omega), List.getElem?_eq_none]
        rw [List.length_singleton]
        omega
  · rw [List.getElem?_eq_none (by rw [List.length_set, tableOf_length]; omega),
      List.getElem?_eq_none (by rw [tableOf_length]; omega)]

/-- The entry for an owner: its own, a new one, or that of the one its blocks count for. -/
theorem pmmOwnerSlot_tableOf (ids : List ℤ) (hP : P (entries ids).length = 0) (owner : ℤ) :
    ∃ j, pmmOwnerSlot (tableOf (entries ids) P) owner =
        (tableOf (entries (meet ids owner)) P, j) ∧
      (entries (meet ids owner))[j]? = some (chargee (entries (meet ids owner)) owner) := by
  have hlen := entries_length_le ids
  unfold pmmOwnerSlot
  cases hown : (tableOf (entries ids) P).findIdx? fun e => e.in_use ∧ e.id = owner with
  | some j =>
    have hj := find_entry_some (fun e _ he => of_decide_eq_true he) hown
    have hm : owner ∈ entries ids := List.mem_of_getElem? hj
    have hmeet : meet ids owner = ids := if_pos (List.mem_of_mem_take hm)
    refine ⟨j, ?_, ?_⟩
    · rw [hmeet]
    · rw [hmeet, hj, chargee, if_pos hm]
  | none =>
    have hn := find_entry_none hlen (fun e _ he => decide_eq_true he) hown
    dsimp only
    rw [find_unused hlen]
    by_cases hfull : (entries ids).length = PMM_OWNER_SLOTS
    · rw [if_pos hfull, entries_meet_of_full hfull]
      dsimp only
      cases hk : (tableOf (entries ids) P).findIdx? fun e => e.id = PMM_OWNER_KERNEL with
      | some j =>
        have hj := find_entry_some
          (fun e he h0 => ⟨in_use_of_full hfull he, of_decide_eq_true h0⟩) hk
        refine ⟨j, rfl, ?_⟩
        rw [hj, chargee, if_neg hn, if_pos (List.mem_of_getElem? hj)]
      | none =>
        have hk := find_entry_none hlen (fun e _ he => decide_eq_true he.2) hk
        have hpos : 0 < (entries ids).length := by
          rw [hfull]
          decide
        refine ⟨0, rfl, ?_⟩
        rw [chargee, if_neg hn, if_neg hk, List.headD_eq_head?_getD, List.head?_eq_getElem?,
          List.getElem?_eq_getElem hpos]
        rfl
    · rw [if_neg hfull, entries_meet_of_not_full hfull hn]
      have hlt := Nat.lt_of_le_of_ne hlen hfull
      refine ⟨(entries ids).length, ?_, ?_⟩
      · dsimp only
        rw [set_tableOf hlt hP]
      · rw [chargee, if_pos (by simp)]
        simp

theorem modify_tableOf (hi : i < E.length) {f : PmmOwnerEntry → PmmOwnerEntry} {n : ℕ}
    (hf : ∀ id, f ⟨id, P i, true⟩ = ⟨id, n, true⟩) :
    (tableOf E P).modify i f = tableOf E (Function.update P i n) := by
  apply List.ext_getElem?
  intro j
  by_cases hj : j < PMM_OWNER_SLOTS
  · rw [List.getElem?_modify, tableOf_get hj, tableOf_get hj]
    by_cases hij : i = j
    · subst hij
      have hid : E[i]? = some E[i] := List.getElem?_eq_getElem hi
      rw [entryOf_some hid, entryOf_some hid, Function.update_self, ← hf]
      exact congrArg some (if_pos rfl)
    · have hji : j ≠ i := Ne.symm hij
      have hsame : entryOf E (Function.update P i n) j = entryOf E P j := by
        simp only [entryOf, Function.update_of_ne hji]
      rw [hsame]
      exact congrArg some (if_neg hij)
  · rw [List.getElem?_eq_none (by rw [List.length_modify, tableOf_length]; omega),
      List.getElem?_eq_none (by rw [tableOf_length]; omega)]

/-- An entry is charged. -/
theorem pmmOwnerAdd_tableOf (hi : i < E.length) (c : ℕ) :
    pmmOwnerAdd (tableOf E P) i c = tableOf E (Function.update P i (P i + c)) :=
  modify_tableOf hi fun _ => rfl

theorem pmmOwnerDel_tableOf (hi : i < E.length) (c : ℕ) :
    pmmOwnerDel (tableOf E P) i c = tableOf E (Function.update P i (P i - c)) := by
  apply modify_tableOf hi
  intro id
  rw [if_pos rfl]
  congr 1
  dsimp only
  split_ifs <;> omega

theorem auPmmOwnerPages_mem {st : State} (h : st.pmm_owner_table = tableOf E P)
    (hE : E.length ≤ PMM_OWNER_SLOTS) (hm : owner ∈ E) :
    ∃ j, E[j]? = some owner ∧ auPmmOwnerPages st owner = P j := by
  unfold auPmmOwnerPages
  rw [h]
  cases hf : (tableOf E P).find? fun e => e.in_use ∧ e.id = owner with
  | none =>
    exfalso
    obtain ⟨j, hj⟩ := List.mem_iff_getElem?.mp hm
    have hlt := (List.getElem?_eq_some_iff.mp hj).1
    have hn := List.find?_eq_none.mp hf _
      (List.mem_of_getElem? (tableOf_get (E := E) (P := P) (Nat.lt_of_lt_of_le hlt hE)))
    rw [entryOf_some hj] at hn
    exact hn (decide_eq_true ⟨rfl, rfl⟩)
  | some e =>
    obtain ⟨j, -, rfl⟩ := List.mem_map.mp (List.mem_of_find?_eq_some hf)
    have hown := List.find?_some hf
    rw [decide_eq_true_eq] at hown
    cases hid : E[j]? with
    | none =>
      rw [entryOf_none (List.getElem?_eq_none_iff.mp hid)] at hown
      exact absurd hown.1 Bool.false_ne_true
    | some id =>
      rw [entryOf_some hid] at hown ⊢
      exact ⟨j, by rw [hid, ← hown.2], rfl⟩

theorem auPmmOwnerPages_not_mem {st : State} (h : st.pmm_owner_table = tableOf E P)
    (hm : owner ∉ E) : auPmmOwnerPages st owner = 0 := by
  unfold auPmmOwnerPages
  rw [h]
  cases hf : (tableOf E P).find? fun e => e.in_use ∧ e.id = owner with
  | none => rfl
  | some e =>
    exfalso
    obtain ⟨j, -, rfl⟩ := List.mem_map.mp (List.mem_of_find?_eq_some hf)
    have hown := List.find?_some hf
    rw [decide_eq_true_eq] at hown
    cases hid : E[j]? with
    | none =>
      rw [entryOf_none (List.getElem?_eq_none_iff.mp hid)] at hown
      exact Bool.false_ne_true hown.1
    | some id =>
      rw [entryOf_some hid] at hown
      exact hm (hown.2 ▸ List.mem_of_getElem? hid)

section HeldPages
variable {p q : ℕ × ℕ → Bool} {b : ℕ × ℕ}

theorem heldPages_cons (b : ℕ × ℕ) (held : List (ℕ × ℕ)) (p : ℕ × ℕ → Bool) :
    heldPages (b :: held) p = (if p b then 2 ^ b.2 else 0) + heldPages held p := by
  unfold heldPages
  by_cases hb : p b
  · rw [List.filter_cons_of_pos hb, if_pos hb, List.map_cons, List.sum_cons]
  · rw [List.filter_cons_of_neg hb, if_neg hb, Nat.zero_add]

theorem heldPages_congr (h : ∀ b ∈ held, p b = q b) : heldPages held p = heldPages held q := by
  unfold heldPages
  rw [List.filter_congr h]

theorem heldPages_eq_zero (h : ∀ b ∈ held, p b = false) : heldPages held p = 0 := by
  unfold heldPages
  rw [List.filter_eq_nil_iff.mpr fun b hb => Bool.eq_false_iff.mp (h b hb)]
  rfl

/-- The only block with its head is taken out. -/
theorem heldPages_remove (hnd : held.Nodup) (hm : b ∈ held)
    (huniq : ∀ c ∈ held, c.1 = b.1 → c = b) (p : ℕ × ℕ → Bool) :
    heldPages (held.filter fun c => c.1 ≠ b.1) p + (if p b then 2 ^ b.2 else 0) =
      heldPages held p := by
  induction held with
  | nil => cases hm
  | cons c held ih =>
    obtain ⟨hc, hnd⟩ := List.nodup_cons.mp hnd
    by_cases hcb : c = b
    · subst hcb
      have hkeep : held.filter (fun d => d.1 ≠ c.1) = held := by
        apply List.filter_eq_self.mpr
        intro d hd
        apply decide_eq_true
        intro he
        exact hc (huniq d (List.mem_cons_of_mem c hd) he ▸ hd)
      rw [List.filter_cons_of_neg (by simp), hkeep, heldPages_cons, Nat.add_comm]
    · have hne : c.1 ≠ b.1 := fun he => hcb (huniq c List.mem_cons_self he)
      have hrest := ih hnd ((List.mem_cons.mp hm).resolve_left (Ne.symm hcb))
        fun d hd => huniq d (List.mem_cons_of_mem c hd)
      rw [List.filter_cons_of_pos (by simpa using hne), heldPages_cons, heldPages_cons, ← hrest,
        Nat.add_assoc]

theorem sum_range_ite (k w n : ℕ) :
    ((List.range n).map fun i => if k = i then w else 0).sum = if k < n then w else 0 := by
  induction n with
  | zero => simp
  | succ n ih =>
    rw [List.range_succ, List.map_append, List.sum_append, ih, List.map_singleton,
      List.sum_singleton]
    split_ifs <;> omega

/-- Every block is in its slot. -/
theorem sum_slots {n : ℕ} (slot : ℕ → ℕ) (h : ∀ b ∈ held, slot b.1 < n) :
    ((List.range n).map fun i => heldPages held fun b => slot b.1 = i).sum =
      heldPages held fun _ => true := by
  induction held with
  | nil => simp [heldPages]
  | cons b held ih =>
    have hone : ((List.range n).map fun i => if slot b.1 = i then 2 ^ b.2 else 0).sum =
        2 ^ b.2 := by
      rw [sum_range_ite, if_pos (h b List.mem_cons_self)]
    simp only [heldPages_cons, decide_eq_true_eq, if_true]
    rw [List.sum_map_add, hone, ih fun c hc => h c (List.mem_cons_of_mem b hc)]

end HeldPages

end Xeneva.Pmm
