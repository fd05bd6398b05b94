import Xeneva.Base.Run
import Xeneva.Cap.Capability

/-!
# Rights only shrink

Every capability descends from one creation, through duplication and inheritance. Its rights
are among those minted there.
-/

namespace Xeneva.Cap

open Xeneva.Base

/-- All rights of `a` are in `b`. -/
def Sub (a b : CapRights) : Prop := a &&& b = a

instance (a b : CapRights) : Decidable (Sub a b) := inferInstanceAs (Decidable (_ = _))

theorem Sub.refl (a : CapRights) : Sub a a := BitVec.and_self

theorem Sub.trans {a b c : CapRights} (hab : Sub a b) (hbc : Sub b c) : Sub a c := by
  unfold Sub at *
  rw [← hab, BitVec.and_assoc, hbc]

theorem Sub.and (a b : CapRights) : Sub (a &&& b) a := by
  rw [Sub, BitVec.and_comm a b, BitVec.and_assoc, BitVec.and_self]

/-- The operations on the tables; `setFd` is any other code that writes a descriptor. -/
inductive CapOp
  | create (p : ℕ) (fd : ℤ) (object : ℕ) (type : UInt8) (rights : CapRights)
  | dup (p : ℕ) (oldfd newfd : ℤ)
  | restrict (p : ℕ) (fd : ℤ) (new_rights : CapRights)
  | destroy (p : ℕ) (fd : ℤ)
  | cleanup (p : ℕ)
  | inherit (parent child : ℕ)
  | setFd (p i n : ℕ)
deriving DecidableEq

def capStep (s : State) : CapOp → State
  | .create p fd object type rights => (capCreate s p fd object type rights).1
  | .dup p oldfd newfd => (capDup s p oldfd newfd).1
  | .restrict p fd new_rights => (capRestrict s p fd new_rights).1
  | .destroy p fd => capDestroy s p fd
  | .cleanup p => capCleanupProcess s p
  | .inherit parent child => capInheritTable s parent child
  | .setFd p i n => { s with fds := setSlot s.fds p i n }

/-- The tables before any capability is made. -/
def State.noCaps (s : State) : State := { s with caps := fun _ _ => default }

/-- How the capability that slot `i` of process `p` has after `op` came there. -/
def Narrowed (s : State) (op : CapOp) (p i : ℕ) (c : AuCapability) : Prop :=
  c = s.caps p i ∨ match op with
    | .create q fd object type rights => q = p ∧ capSlot fd = some i ∧ c.object = object ∧
        c.object_type = type ∧ c.rights = mintRights type rights
    | .dup q oldfd _ => q = p ∧ ∃ o, capLookup s p oldfd = some o ∧
        c.object = (s.caps p o).object ∧ Sub c.rights (s.caps p o).rights
    | .restrict q fd _ => q = p ∧ capLookup s p fd = some i ∧
        c.object = (s.caps p i).object ∧ Sub c.rights (s.caps p i).rights
    | .inherit parent child => child = p ∧ (s.caps parent i).valid ∧
        (s.caps parent i).flags &&& CAP_FLAG_NO_INHERIT = 0 ∧
        c.object = (s.caps parent i).object ∧ Sub c.rights (s.caps parent i).rights
    | _ => False

variable {s : State} {op : CapOp} {p i : ℕ}

theorem narrowed_step (hv : ((capStep s op).caps p i).valid) :
    Narrowed s op p i ((capStep s op).caps p i) := by
  cases op with
  | create q fd object type rights =>
    rcases capCreate_cases s q fd object type rights with he | ⟨j, hj, -, he⟩
    · exact Or.inl (by rw [capStep, he])
    · simp only [capStep, he, setSlot_apply]
      by_cases h : p = q ∧ i = j
      · rw [if_pos h]
        exact Or.inr ⟨h.1.symm, by rw [hj, h.2], rfl, rfl, rfl⟩
      · exact Or.inl (if_neg h)
  | dup q oldfd newfd =>
    rcases capDup_cases s q oldfd newfd with he | ⟨o, n, ho, -, -, -, he⟩
    · exact Or.inl (by rw [capStep, he])
    · simp only [capStep, he, setSlot_apply]
      by_cases h : p = q ∧ i = n
      · rw [if_pos h, ← h.1]
        exact Or.inr ⟨rfl, o, h.1 ▸ ho, rfl, Sub.refl _⟩
      · exact Or.inl (if_neg h)
  | restrict q fd new_rights =>
    rcases capRestrict_cases s q fd new_rights with he | ⟨j, hj, he⟩
    · exact Or.inl (by rw [capStep, he])
    · simp only [capStep, he, setSlot_apply]
      by_cases h : p = q ∧ i = j
      · rw [if_pos h, ← h.1, ← h.2]
        exact Or.inr ⟨rfl, by rw [h.1, h.2, hj], rfl, Sub.and _ _⟩
      · exact Or.inl (if_neg h)
  | destroy q fd =>
    left
    simp only [capStep, capDestroy] at hv ⊢
    cases hj : capSlot fd with
    | none => rfl
    | some j =>
      rw [hj] at hv
      simp only [clearSlot_caps] at hv ⊢
      exact if_neg fun h => by rw [if_pos h] at hv; cases hv
  | cleanup q =>
    left
    simp only [capStep, capCleanupProcess, clearLoop_caps] at hv ⊢
    exact if_neg fun h => by rw [if_pos h] at hv; cases hv
  | inherit parent child =>
    rw [capStep, capInheritTable_eq]
    by_cases h : p = child ∧ i < FILE_DESC_PER_PROCESS ∧ Inherits s parent child i
    · obtain ⟨hc, -, hsv, hsf, -⟩ := id h
      right
      simp only [if_pos h]
      exact ⟨hc.symm, hsv, hsf, rfl, Sub.refl _⟩
    · exact Or.inl (if_neg h)
  | setFd q j n => exact Or.inl rfl

/-! ## Descent -/

/-- A call of `create`. -/
structure Creation where
  proc : ℕ
  object : ℕ
  type : UInt8
  rights : CapRights
deriving DecidableEq

instance : Inhabited Creation := ⟨⟨0, 0, 0, 0⟩⟩

/-- The creation that each slot's capability descends from, after `op`. -/
def origins (s : State) (o : ℕ → ℕ → Creation) : CapOp → ℕ → ℕ → Creation
  | .create p fd object type rights =>
    match capSlot fd with
    | some i => if object = 0 then o else setSlot o p i ⟨p, object, type, rights⟩
    | none => o
  | .dup p oldfd newfd =>
    match capLookup s p oldfd, capSlot newfd with
    | some a, some b => if (capDup s p oldfd newfd).2 = CAP_OK then setSlot o p b (o p a) else o
    | _, _ => o
  | .inherit parent child => fun q i =>
    if q = child ∧ i < FILE_DESC_PER_PROCESS ∧ Inherits s parent child i then o parent i else o q i
  | _ => o

def trackStep (r : State × (ℕ → ℕ → Creation)) (op : CapOp) : State × (ℕ → ℕ → Creation) :=
  (capStep r.1 op, origins r.1 r.2 op)

/-- A capability, and the creation that it descends from. -/
structure FromCreation (ops : List CapOp) (p : ℕ) (c : AuCapability) (o : Creation) : Prop where
  made : ∃ fd, CapOp.create o.proc fd o.object o.type o.rights ∈ ops
  object : c.object = o.object
  type : c.object_type = o.type
  rights : Sub c.rights (mintRights o.type o.rights)
  noInherit : c.flags &&& CAP_FLAG_NO_INHERIT ≠ 0 → o.proc = p

def Rooted (ops : List CapOp) (r : State × (ℕ → ℕ → Creation)) : Prop :=
  ∀ p i, (r.1.caps p i).valid → FromCreation ops p (r.1.caps p i) (r.2 p i)

/-- A capability keeps its descent when it loses rights, and also in another process when the
other one may inherit it. -/
theorem FromCreation.narrow {ops : List CapOp} {p q : ℕ} {c c' : AuCapability} {o : Creation}
    (h : FromCreation ops p c o) (ho : c'.object = c.object) (ht : c'.object_type = c.object_type)
    (hr : Sub c'.rights c.rights) (hf : c'.flags = c.flags)
    (hq : q = p ∨ c.flags &&& CAP_FLAG_NO_INHERIT = 0) : FromCreation ops q c' o where
  made := h.made
  object := ho.trans h.object
  type := ht.trans h.type
  rights := hr.trans h.rights
  noInherit hn := by
    rw [hf] at hn
    rw [hq.resolve_right hn]
    exact h.noInherit hn

theorem Rooted.step {ops : List CapOp} {r : State × (ℕ → ℕ → Creation)} (h : Rooted ops r)
    (hop : op ∈ ops) : Rooted ops (trackStep r op) := by
  obtain ⟨s, o⟩ := r
  intro p i hv
  cases op with
  | create q fd object type rights =>
    simp only [trackStep, capStep, capCreate, origins] at hv ⊢
    cases hj : capSlot fd with
    | none =>
      rw [hj] at hv
      exact h p i hv
    | some j =>
      rw [hj] at hv
      by_cases ho : object = 0
      · simp only [if_pos ho] at hv ⊢
        exact h p i hv
      · simp only [if_neg ho, setSlot_apply] at hv ⊢
        by_cases hs : p = q ∧ i = j
        · simp only [if_pos hs]
          exact ⟨⟨fd, hop⟩, rfl, rfl, Sub.refl _, fun _ => hs.1.symm⟩
        · simp only [if_neg hs] at hv ⊢
          exact h p i hv
  | dup q oldfd newfd =>
    rcases capDup_cases s q oldfd newfd with he | ⟨a, b, ha, hb, -, -, he⟩
    · have hne : (capDup s q oldfd newfd).2 ≠ CAP_OK := by
        rw [he]
        exact (by decide : CAP_ERR_INVALID ≠ CAP_OK)
      have ho : origins s o (.dup q oldfd newfd) = o := by
        simp only [origins, if_neg hne]
        split <;> rfl
      simp only [trackStep, capStep, he, ho] at hv ⊢
      exact h p i hv
    · simp only [trackStep, capStep, origins, he, ha, hb, if_true, setSlot_apply] at hv ⊢
      by_cases hs : p = q ∧ i = b
      · simp only [if_pos hs]
        exact (h q a (capLookup_eq_some.mp ha).2).narrow rfl rfl (Sub.refl _) rfl (Or.inl hs.1)
      · simp only [if_neg hs] at hv ⊢
        exact h p i hv
  | restrict q fd new_rights =>
    rcases capRestrict_cases s q fd new_rights with he | ⟨j, hj, he⟩
    · simp only [trackStep, capStep, he, origins] at hv ⊢
      exact h p i hv
    · simp only [trackStep, capStep, he, origins, setSlot_apply] at hv ⊢
      by_cases hs : p = q ∧ i = j
      · simp only [if_pos hs]
        rw [hs.1, hs.2]
        exact (h q j (capLookup_eq_some.mp hj).2).narrow rfl rfl (Sub.and _ _) rfl (Or.inl rfl)
      · simp only [if_neg hs] at hv ⊢
        exact h p i hv
  | destroy q fd =>
    simp only [trackStep, capStep, capDestroy, origins] at hv ⊢
    cases hj : capSlot fd with
    | none =>
      rw [hj] at hv
      exact h p i hv
    | some j =>
      simp only [hj, clearSlot_caps] at hv ⊢
      by_cases hs : p = q ∧ i = j ∧ (s.caps q j).valid
      · rw [if_pos hs] at hv
        cases hv
      · rw [if_neg hs] at hv ⊢
        exact h p i hv
  | cleanup q =>
    simp only [trackStep, capStep, capCleanupProcess, origins, clearLoop_caps] at hv ⊢
    by_cases hs : p = q ∧ i < FILE_DESC_PER_PROCESS ∧ (s.caps p i).valid
    · rw [if_pos hs] at hv
      cases hv
    · rw [if_neg hs] at hv ⊢
      exact h p i hv
  | inherit parent child =>
    simp only [trackStep, capStep, capInheritTable_eq, origins] at hv ⊢
    by_cases hs : p = child ∧ i < FILE_DESC_PER_PROCESS ∧ Inherits s parent child i
    · simp only [if_pos hs]
      exact (h parent i hs.2.2.1).narrow rfl rfl (Sub.refl _) rfl (Or.inr hs.2.2.2.1)
    · simp only [if_neg hs] at hv ⊢
      exact h p i hv
  | setFd q j n => exact h p i hv

/-- In every run the rights of a capability are among those minted by the creation that it
descends from, which was for the same object, and in the same process if the capability is not
to be inherited; and each step only narrows what it copies. -/
theorem exec_capRights (s : State) (ops : List CapOp) :
    let r := run trackStep (s.noCaps, fun _ _ => default) ops
    (∀ p i, (r.1.caps p i).valid → FromCreation ops p (r.1.caps p i) (r.2 p i)) ∧
    ∀ op p i, ((capStep r.1 op).caps p i).valid →
      Narrowed r.1 op p i ((capStep r.1 op).caps p i) := by
  constructor
  · apply (respects_mem _ ops).invariant (I := Rooted ops)
    · intro r op h hop
      exact h.step hop
    · intro p i hv
      cases hv
  · intro op p i hv
    exact narrowed_step hv

/-- What the first creation for an object mints. -/
def firstMinted (object : ℕ) (ops : List CapOp) : Option CapRights :=
  ops.findSome? fun
    | .create _ fd o type rights =>
      if (capSlot fd).isSome ∧ o = object ∧ o ≠ 0 then some (mintRights type rights) else none
    | _ => none

def noState : State where
  caps _ _ := default
  fds _ _ := 0
  creds _ := ⟨0, 0, []⟩
  node _ := default
  nextNode := 1
  refcount _ := 0
  freed _ := 0
  hooks _ := 0
  hw := Hw.boot fun _ => 0

/-- A file that is opened a second time, then for writing, gives rights beyond the first. -/
theorem not_exec_firstRights : ¬∀ (s : State) (ops : List CapOp) (p i : ℕ),
    let c := (run capStep s.noCaps ops).caps p i
    c.valid → ∃ m, firstMinted c.object ops = some m ∧ Sub c.rights m := by
  intro h
  have hc := h noState [.create 0 3 7 CAP_OBJ_FILE CAP_READ,
    .create 1 3 7 CAP_OBJ_FILE (CAP_READ ||| CAP_WRITE)] 1 3 (by decide)
  obtain ⟨m, hm, hs⟩ := hc
  have hr : m = CAP_READ := by
    apply Option.some.inj
    rw [← hm]
    decide
  rw [hr] at hs
  revert hs
  decide

end Xeneva.Cap
